import MeasurementLimiter.SimCounters

namespace MeasurementLimiter.RingSim

open Cyclic Runs

variable {τ : Type} {r r' : Ring τ} {p : Packet τ} {i : ℕ}

theorem nth_zero (hr : InRange r) : r.nth 0 = r.packets r.nowPostion := by
  rw [Ring.nth, shift_zero hr.now_lt]

theorem Consistent.ahead (h : Consistent r) (hr : InRange r) {j : ℕ} (hj : r.span < j)
    (hlt : j < block) : r.nth j = [] := by
  by_contra hne
  have hinside := h.inside _ (shift_lt hr.now_lt hlt.le) hne
  rw [gap_shift hr.now_lt hlt] at hinside
  omega

theorem Consistent.stored_eq (h : Consistent r) (hr : InRange r) :
    r.stored = (List.range block).flatMap r.nth := by
  have hspan : r.span < block := gap_lt hr.pre_lt
  obtain ⟨m, hm⟩ : ∃ m, block = r.span + 1 + m := ⟨block - (r.span + 1), by omega⟩
  have hrest : (List.range m).flatMap (fun j => r.nth (r.span + 1 + j)) = [] := by
    refine List.flatMap_eq_nil_iff.mpr fun j hj => ?_
    have := List.mem_range.mp hj
    exact h.ahead hr (by omega) (by omega)
  have hsplit : List.range (r.span + 1 + m) = List.range (r.span + 1) ++ (List.range m).map _ :=
    List.range_add
  rw [Ring.stored, hm, hsplit, List.flatMap_append, List.flatMap_map, hrest, List.append_nil]

theorem Consistent.stored_put (h : Consistent r) (hr : InRange r) (hi : i < block)
    (hput : r.Put r' i (r.packets i ++ [p]) (r.nowBytes i + p.len))
    (hlast : ∀ j < block, r.packets j ≠ [] → gap block r.nowPostion j ≤ gap block r.nowPostion i) :
    (r'.count p).stored = r.stored ++ [p] := by
  have hcount := h.put hi hput hlast
  have hnow : (r'.count p).nowPostion = r.nowPostion := hput.nowPostion
  have hpackets : (r'.count p).packets = Function.update r.packets i (r.packets i ++ [p]) :=
    hput.packets
  have hgap : gap block r.nowPostion i < block := gap_lt hi
  rw [hcount.stored_eq (hput.inRange hr hi), h.stored_eq hr]
  refine flatMap_range_snoc hgap (fun j hj => ?_) fun j hj hlt => ?_
  · have hplace : shift block r.nowPostion j = i ↔ j = gap block r.nowPostion i := by
      rw [← shift_inj hj hgap, shift_gap hr.now_lt hi]
    rw [Ring.nth, hnow, hpackets, Function.update_apply]
    by_cases hji : j = gap block r.nowPostion i
    · rw [if_pos (hplace.mpr hji), if_pos hji, Ring.nth, shift_gap hr.now_lt hi]
    · rw [if_neg fun he => hji (hplace.mp he), if_neg hji, Ring.nth]
  · by_contra hne
    have hle := hlast _ (shift_lt hr.now_lt hlt.le) hne
    rw [gap_shift hr.now_lt hlt] at hle
    omega

theorem nth_deRing (hr : InRange r) (n : ℕ) {j : ℕ} (hj : j < block) :
    (deRing n r).2.nth j = if j = 0 then [] else r.nth j := by
  obtain ⟨hnow, -⟩ := deRing_pointers n r
  rw [Ring.nth, hnow, deRing_packets, Function.update_apply]
  by_cases hzero : j = 0
  · rw [hzero, shift_zero hr.now_lt, if_pos rfl, if_pos rfl]
  · rw [if_neg hzero, if_neg, Ring.nth]
    intro he
    have := gap_shift hr.now_lt hj
    rw [he, gap_self] at this
    exact hzero this.symm

theorem nth_statusUpdate (hr : InRange r) (hempty : r.packets r.nowPostion = []) {j : ℕ}
    (hj : j < block) : (statusUpdate r).nth j = if j + 1 = block then [] else r.nth (j + 1) := by
  have hpackets : (statusUpdate r).packets = r.packets := by
    rw [statusUpdate_packets, ← hempty, Function.update_eq_self]
  obtain ⟨hnow, -, -⟩ := statusUpdate_pointers hr.now_lt hr.pre_lt
  rw [Ring.nth, hnow, hpackets]
  split_ifs with hlast
  · rw [shift_shift_wrap hr.now_lt (by omega) (by omega) (by omega),
      show 1 + j - block = 0 by omega, shift_zero hr.now_lt, hempty]
  · rw [shift_shift hr.now_lt (by omega), Nat.add_comm]
    rfl

theorem stored_deRing (hr : InRange r) (n : ℕ) :
    r.packets r.nowPostion ++ (deRing n r).2.stored = r.stored := by
  obtain ⟨hnow, hpre⟩ := deRing_pointers n r
  have hspan : (deRing n r).2.span = r.span := by rw [span_eq, span_eq, hnow, hpre]
  have hlt : r.span < block := gap_lt hr.pre_lt
  have hfirst : (deRing n r).2.nth 0 = [] := nth_deRing hr n block_pos
  rw [Ring.stored, Ring.stored, hspan, List.range_succ_eq_map, List.flatMap_cons, List.flatMap_cons,
    hfirst, List.nil_append, nth_zero hr, List.flatMap_map, List.flatMap_map]
  refine congrArg _ (List.flatMap_congr fun j hj => ?_)
  have := List.mem_range.mp hj
  exact nth_deRing hr n (show j + 1 < block by omega)

theorem Consistent.stored_statusUpdate (h : Consistent r) (hr : InRange r)
    (hempty : r.packets r.nowPostion = []) : (RingSim.statusUpdate r).stored = r.stored := by
  have h' := h.statusUpdate hr hempty
  obtain ⟨m, hm⟩ : ∃ m, block = m + 1 := ⟨block - 1, by have := block_pos; omega⟩
  have hnth : ∀ j < m, (RingSim.statusUpdate r).nth j = r.nth (j + 1) := fun j hj =>
    (nth_statusUpdate hr hempty (by omega)).trans (if_neg (by omega))
  have hlast : (RingSim.statusUpdate r).nth m = [] :=
    (nth_statusUpdate hr hempty (by omega)).trans (if_pos hm.symm)
  have hfront : (List.range m).flatMap (RingSim.statusUpdate r).nth =
      (List.range m).flatMap fun j => r.nth (j + 1) :=
    List.flatMap_congr fun j hj => hnth j (List.mem_range.mp hj)
  have hzero : r.nth 0 = [] := (nth_zero hr).trans hempty
  rw [h'.stored_eq hr.statusUpdate, h.stored_eq hr, hm, List.range_succ, List.flatMap_append,
    List.flatMap_singleton, hlast, List.append_nil, hfront, ← List.range_succ, List.range_succ_eq_map,
    List.flatMap_cons, hzero, List.nil_append, List.flatMap_map]

def Ring.vacant (r : Ring τ) : Bool := decide (∀ i < block, r.nowQlen i = 0)

theorem vacant_iff : r.vacant ↔ ∀ i < block, r.packets i = [] := by
  simp [Ring.vacant, packets_eq_nil]

def Sim.printedPackets (s : Sim τ) : List (Packet τ) := s.printed.flatten.map Line.packet

structure Queued (s : Sim τ) : Prop where
  inRange : InRange s.ring
  consistent : Consistent s.ring
  order : s.printedPackets ++ s.ring.stored = s.placed

/-- What is printed and what is queued in the ring are what was placed, in this order. -/
structure Delivers (s : Sim τ) : Prop extends Known s where
  unread : ∀ p ∈ s.input, 0 < p.len
  consistent : Consistent s.ring
  order : s.printedPackets ++ s.ring.stored = s.placed

variable {s s' : Sim τ}

/-- A call of `de_ring` with the call of `status_update` after it keeps the counters right, and
moves the packets of the first block from the queue to the printed ones. -/
theorem Consistent.finish (h : Consistent s.ring) (hr : InRange s.ring) :
    Consistent s.finish.ring ∧ InRange s.finish.ring ∧
      s.finish.printedPackets ++ s.finish.ring.stored = s.printedPackets ++ s.ring.stored := by
  unfold Sim.finish
  split_ifs
  · have hr' := hr.deRing s.totRound
    have hc := h.deRing hr s.totRound
    have hempty : (RingSim.deRing s.totRound s.ring).2.packets
        (RingSim.deRing s.totRound s.ring).2.nowPostion = [] := by
      rw [(deRing_pointers _ _).1, deRing_packets, Function.update_self]
    refine ⟨hc.statusUpdate hr' hempty, hr'.statusUpdate, ?_⟩
    have hprinted : s.deRing.statusUpdate.printedPackets =
        s.printedPackets ++ s.ring.packets s.ring.nowPostion := by
      change ((s.printed ++ [(RingSim.deRing s.totRound s.ring).1]).flatten.map Line.packet) = _
      rw [List.flatten_append, List.map_append, List.flatten_singleton, deRing_lines]
      rfl
    have hstored : s.deRing.statusUpdate.ring.stored =
        (RingSim.deRing s.totRound s.ring).2.stored := hc.stored_statusUpdate hr' hempty
    rw [hprinted, hstored, List.append_assoc, stored_deRing hr]
  · exact ⟨h, hr, rfl⟩

theorem finish_frame (s : Sim τ) : s.finish.input = s.input ∧ s.finish.inque = s.inque ∧
    s.finish.totRound = s.totRound ∧ s.finish.placed = s.placed ∧
    s.finish.discarded = s.discarded := by
  unfold Sim.finish
  split_ifs
  · exact ⟨rfl, rfl, rfl, rfl, rfl⟩
  · exact ⟨rfl, rfl, rfl, rfl, rfl⟩

theorem queued_new (mem : ℕ → ℕ → Packet τ) (input : List (Packet τ)) :
    Queued (Sim.new mem input) :=
  ⟨⟨block_pos, block_pos⟩, consistent_new mem,
    List.flatMap_eq_nil_iff.mpr fun _ _ => packets_new mem _⟩

theorem Queued.finish (q : Queued s) : Queued s.finish := by
  obtain ⟨hc, hr, horder⟩ := q.consistent.finish q.inRange
  obtain ⟨-, -, -, hplaced, -⟩ := finish_frame s
  exact ⟨hr, hc, by rw [horder, hplaced, q.order]⟩

theorem Positive.finish (h : Positive s.ring) : Positive s.finish.ring := by
  unfold Sim.finish
  split_ifs
  · exact (h.clear (deRing_packets _ _)).clear (statusUpdate_packets _)
  · exact h

theorem Delivers.queued (d : Delivers s) : Queued s := ⟨d.inRange, d.consistent, d.order⟩

theorem Delivers.finish (d : Delivers s) : Delivers s.finish := by
  obtain ⟨hc, hr, horder⟩ := d.consistent.finish d.inRange
  obtain ⟨hinput, hinque, -, hplaced, -⟩ := finish_frame s
  refine ⟨⟨hr, d.positive.finish, ?_⟩, ?_, hc, ?_⟩
  · rw [hinque]
    exact d.lengths
  · rw [hinput]
    exact d.unread
  · rw [horder, hplaced]
    exact d.order

theorem delivers_new (mem : ℕ → ℕ → Packet τ) {input : List (Packet τ)}
    (hlen : ∀ p ∈ input, 0 < p.len) : Delivers (Sim.new mem input) := by
  refine ⟨known_new mem input, hlen, consistent_new mem, ?_⟩
  refine List.flatMap_eq_nil_iff.mpr fun j _ => ?_
  exact packets_new mem _

variable [LE τ] {A : RingNum τ}

def Sim.Unwrapped (A : RingNum τ) (s : Sim τ) (_ : Unit) : Prop :=
  arriving A (s.totRound + 1) s.input ≠ [] →
    NoWrap A (s.begin A).totRound s.ring.totBytes (s.begin A).inque

instance (A : RingNum τ) (s : Sim τ) (c : Unit) : Decidable (s.Unwrapped A c) := by
  unfold Sim.Unwrapped
  infer_instance

def Sim.Below (A : RingNum τ) (s : Sim τ) (_ : Unit) : Prop :=
  arriving A (s.totRound + 1) s.input ≠ [] →
    EachPlaced A (s.begin A).totRound (fun _ needs => needs ≠ block) s.ring.totBytes (s.begin A).inque

instance (A : RingNum τ) (s : Sim τ) (c : Unit) : Decidable (s.Below A c) := by
  unfold Sim.Below
  infer_instance

/-- `in_ring` overwrites no packet: it is called at tick `n` with `tot` bytes in the ring, and places
no packet that needs exactly `block` blocks, unless it is the first one of a `vacant` ring. -/
def NoLoss (A : RingNum τ) (n : ℕ) : Bool → ℤ → List (Packet τ) → Prop
  | _, _, [] => True
  | vacant, tot, p :: l =>
    if A.expired p.arrivalTime n then NoLoss A n vacant tot l
    else if A.tooLong p.len then True
    else if block < A.intervalBlock (p.len + tot) then True
    else (A.intervalBlock (p.len + tot) = block → vacant) ∧ NoLoss A n false (tot + p.len) l

instance decidableNoLoss (A : RingNum τ) (n : ℕ) :
    (vacant : Bool) → (tot : ℤ) → (l : List (Packet τ)) → Decidable (NoLoss A n vacant tot l)
  | _, _, [] => isTrue trivial
  | vacant, tot, p :: l =>
    have := decidableNoLoss A n vacant tot l
    have := decidableNoLoss A n false (tot + p.len) l
    inferInstanceAs (Decidable (if A.expired p.arrivalTime n then NoLoss A n vacant tot l
      else if A.tooLong p.len then True
      else if block < A.intervalBlock (p.len + tot) then True
      else (A.intervalBlock (p.len + tot) = block → vacant) ∧ NoLoss A n false (tot + p.len) l))

theorem noLoss_expired {n : ℕ} {vacant : Bool} {tot : ℤ} {l : List (Packet τ)}
    (he : A.expired p.arrivalTime n) : NoLoss A n vacant tot (p :: l) ↔ NoLoss A n vacant tot l := by
  rw [NoLoss, if_pos he]

theorem noLoss_place {n : ℕ} {vacant : Bool} {tot : ℤ} {l : List (Packet τ)}
    (he : ¬A.expired p.arrivalTime n) (hlong : ¬A.tooLong p.len)
    (hfit : A.intervalBlock (p.len + tot) ≤ block) : NoLoss A n vacant tot (p :: l) ↔
      (A.intervalBlock (p.len + tot) = block → vacant) ∧ NoLoss A n false (tot + p.len) l := by
  rw [NoLoss, if_neg he, if_neg hlong, if_neg (not_lt.mpr hfit)]

theorem NoWrap.noLoss {n : ℕ} {vacant : Bool} {tot : ℤ} {l : List (Packet τ)}
    (h : NoWrap A n tot l) (hl : ∀ p ∈ l, 0 < p.len) (htot : 0 ≤ tot)
    (hvacant : tot = 0 → vacant) : NoLoss A n vacant tot l := by
  induction l generalizing vacant tot with
  | nil => trivial
  | cons p l ih =>
    have hp := hl p List.mem_cons_self
    have hrest := fun p' hp' => hl p' (List.mem_cons_of_mem p hp')
    by_cases he : A.expired p.arrivalTime n
    · exact (noLoss_expired he).mpr (ih ((eachPlaced_expired he).mp h) hrest htot hvacant)
    · rw [NoLoss, if_neg he]
      split_ifs with hlong hfull
      obtain ⟨hround, hl'⟩ := (eachPlaced_place he hlong (not_lt.mp hfull)).mp h
      exact ⟨fun hib => hvacant (hround hib), ih hl' hrest (by omega) (by omega)⟩

theorem Queued.inRing (q : Queued s)
    (hloss : NoLoss A s.totRound s.ring.vacant s.ring.totBytes s.inque)
    (heq : inRing A s = .ok s') : Queued s' := by
  refine inRingLoop_rule
    (I := fun l t => t.totRound = s.totRound ∧ Queued t ∧
      ∃ vacant : Bool, (vacant → t.ring.vacant) ∧ NoLoss A s.totRound vacant t.ring.totBytes l)
    (J := Queued) ?_ ?_ ?_ ?_ ?_ ⟨rfl, q, _, id, hloss⟩ heq
  · rintro p l t ⟨hn, qt, vacant, hv, hno⟩ he
    exact ⟨hn, ⟨qt.inRange, qt.consistent, qt.order⟩, vacant, hv, (noLoss_expired (hn ▸ he)).mp hno⟩
  · rintro p l t ring ⟨hn, qt, vacant, hv, hno⟩ he hlong hfit hplace
    obtain ⟨hround, hno⟩ := (noLoss_place (hn ▸ he) hlong hfit).mp hno
    obtain ⟨i, hi, hput, hlast, -⟩ := qt.consistent.put_of_place qt.inRange hfit
      (fun hib => vacant_iff.mp (hv (hround hib))) hplace
    have htot : (ring.count p).totBytes = t.ring.totBytes + p.len :=
      congrArg (· + p.len) hput.totBytes
    refine ⟨hn, ⟨hput.inRange qt.inRange hi, qt.consistent.put hi hput hlast, ?_⟩, false,
      fun hf => absurd hf (by decide), htot ▸ hno⟩
    have hstored := qt.consistent.stored_put qt.inRange hi hput hlast
    change t.printedPackets ++ (ring.count p).stored = t.placed ++ [p]
    rw [hstored, ← qt.order, List.append_assoc]
  · exact fun p l t ⟨_, qt, _⟩ _ _ => ⟨qt.inRange, qt.consistent, qt.order⟩
  · exact fun p l t ⟨_, qt, _⟩ _ _ _ => ⟨qt.inRange, qt.consistent, qt.order⟩
  · exact fun t ⟨_, qt, _⟩ => ⟨qt.inRange, qt.consistent, qt.order⟩

theorem Queued.begin (q : Queued s) : Queued (s.begin A) := ⟨q.inRange, q.consistent, q.order⟩

theorem Delivers.begin (d : Delivers s) : Delivers (s.begin A) := by
  obtain ⟨hlengths, hunread⟩ := forall_begin (A := A) d.lengths d.unread
  exact ⟨⟨d.inRange, d.positive, hlengths⟩, hunread, d.consistent, d.order⟩

theorem Delivers.inRing (d : Delivers s) (hwrap : NoWrap A s.totRound s.ring.totBytes s.inque)
    (heq : inRing A s = .ok s') : Delivers s' := by
  have htot : 0 ≤ s.ring.totBytes := d.consistent.total ▸ d.positive.nonneg
  have q := d.queued.inRing (hwrap.noLoss d.lengths htot fun hzero =>
    vacant_iff.mpr fun i hi => d.consistent.empty d.positive hzero hi) heq
  refine ⟨d.toKnown.inRing heq, ?_, q.consistent, q.order⟩
  rw [(inRing_frame heq).1]
  exact d.unread

theorem Delivers.tick (d : Delivers s) {c : Unit} (hwrap : s.Unwrapped A c) {o : Unit}
    (heq : RingSim.tick A s c = .ok (o, s')) : Delivers s' :=
  tick_rule d.begin (fun _ hnone ht => d.begin.inRing (hwrap hnone) ht) (fun _ d => d.finish) heq

/-- In every run of ticks in which no jump comes round to a ring with packets, the printed
packets and then those in the blocks from `now_postion` to `pre_pointer` are the packets that
`in_ring` placed, in this order. -/
theorem printed_then_stored (A : RingNum τ) (mem : ℕ → ℕ → Packet τ) {input : List (Packet τ)}
    (hlen : ∀ p ∈ input, 0 < p.len) {h : List (Unit × Unit)}
    (run : GuardedRun (RingSim.tick A) (Sim.Unwrapped A) (Sim.new mem input) h s) :
    s.printedPackets ++ s.ring.stored = s.placed := by
  have d : Delivers s := run.keeps (delivers_new mem hlen) fun _ _ _ _ d hC heq => d.tick hC heq
  exact d.order

theorem printed_then_stored_sample :
    ∃ s : Sim ℚ, s.printedPackets = [⟨0, 100⟩] ∧ s.ring.stored = [⟨1 / 2, 65536⟩] ∧
      s.printedPackets ++ s.ring.stored = s.placed := by
  obtain ⟨h, s, run, hs⟩ := exists_guardedRun_of_exec
    (fun s : Sim ℚ => (s.printedPackets, s.ring.stored)) (b := ([⟨0, 100⟩], [⟨1 / 2, 65536⟩]))
    (show (execGuarded (RingSim.tick ringSample) (Sim.Unwrapped ringSample)
      (Sim.new memSample [⟨0, 100⟩, ⟨1 / 2, 65536⟩]) (List.replicate 10 ())).map _ = _ by
        decide +kernel)
  obtain ⟨hprinted, hstored⟩ := Prod.mk.inj hs
  exact ⟨s, hprinted, hstored, printed_then_stored ringSample memSample (by decide +kernel) run⟩

/-- Two packets that fill the ring exactly: the first is no longer between the pointers. -/
theorem full_ring_reorders :
    ∃ h s, (∀ p ∈ ([⟨0, 65536⟩, ⟨0, 65536⟩] : List (Packet ℚ)), 0 < p.len) ∧
      Run (RingSim.tick ringSample) (Sim.new memSample [⟨0, 65536⟩, ⟨0, 65536⟩]) h s ∧
      s.printedPackets ++ s.ring.stored ≠ s.placed := by
  obtain ⟨h, s, run, hs⟩ := exists_run_of_exec
    (fun s : Sim ℚ => (s.printedPackets, s.ring.stored, s.placed))
    (b := ([], [⟨0, 65536⟩], [⟨0, 65536⟩, ⟨0, 65536⟩]))
    (show (exec (RingSim.tick ringSample) (Sim.new memSample [⟨0, 65536⟩, ⟨0, 65536⟩])
      [()]).toOption.map _ = _ by decide +kernel)
  obtain ⟨hprinted, hrest⟩ := Prod.mk.inj hs
  obtain ⟨hstored, hplaced⟩ := Prod.mk.inj hrest
  refine ⟨h, s, by decide +kernel, run, ?_⟩
  rw [hprinted, hstored, hplaced]
  decide +kernel

end MeasurementLimiter.RingSim
