import MeasurementLimiter.SimCounters

namespace MeasurementLimiter.RingSim

open Cyclic Runs

variable {τ : Type} {r r' : Ring τ} {p : Packet τ} {ib : ℤ} {l : List (Packet τ)}

/-- Block and place to which `in_ring` writes a packet. -/
def Ring.target (r : Ring τ) (intervalBlock : ℤ) : ℕ × ℕ :=
  let interval := calInterval r.nowPostion r.prePointer
  if intervalBlock ≤ interval then (r.prePointer, r.nowQlen r.prePointer)
  else (((intervalBlock - interval + r.prePointer) % block).toNat, 0)

/-- The places that `de_ring` reads, if it is called at the end of the tick. -/
def Sim.printAccesses (s : Sim τ) : List (ℕ × ℕ) :=
  if s.totRound % 10 = 0 then
    (List.range (s.ring.nowQlen s.ring.nowPostion)).map fun k => (s.ring.nowPostion, k)
  else []

def InArray (a : ℕ × ℕ) : Prop := a.1 < block ∧ a.2 < qlen

instance (a : ℕ × ℕ) : Decidable (InArray a) := inferInstanceAs (Decidable (_ ∧ _))

section Accesses

variable [LE τ]

/-- The places that the loop of `in_ring` writes to.  Behind a write out of its block nothing is
known. -/
def inRingAccesses (A : RingNum τ) : List (Packet τ) → Sim τ → List (ℕ × ℕ)
  | [], _ => []
  | p :: inque, s =>
    if A.expired p.arrivalTime s.totRound then inRingAccesses A inque (s.discard p)
    else if A.tooLong p.len then []
    else if block < s.needs A p then []
    else
      s.ring.target (s.needs A p) ::
        match s.ring.place p (s.needs A p) with
        | .error _ => []
        | .ok ring => inRingAccesses A inque (s.placedIn p ring)

def Sim.accesses (A : RingNum τ) (s : Sim τ) : List (ℕ × ℕ) :=
  if arriving A (s.totRound + 1) s.input = [] then (s.begin A).printAccesses
  else
    inRingAccesses A (s.begin A).inque (s.begin A) ++
      match inRing A (s.begin A) with
      | .error _ => []
      | .ok t => t.printAccesses

end Accesses

/-- What `in_ring` reads of the ring: the bytes in all blocks, the links from `now_postion` to
`pre_pointer`, and the packets of the block there. -/
structure Tail (τ : Type) where
  tot : ℤ
  span : ℕ
  last : List (Packet τ)

def Ring.tail (r : Ring τ) : Tail τ := ⟨r.totBytes, r.span, r.packets r.prePointer⟩

/-- A packet that needs `ib` blocks is placed. -/
def Tail.place (t : Tail τ) (p : Packet τ) (ib : ℤ) : Tail τ :=
  if ib ≤ t.span then ⟨t.tot + p.len, t.span, t.last ++ [p]⟩
  else ⟨t.tot + p.len, if ib = block then 0 else ib.toNat, [p]⟩

theorem place_last (t : Tail τ) (p : Packet τ) (ib : ℤ) :
    (t.place p ib).last = if ib ≤ t.span then t.last ++ [p] else [p] :=
  apply_ite Tail.last _ _ _

theorem tail_put {i : ℕ} {b : ℤ} (hput : r.Put r' i l b) :
    (r'.count p).tail = ⟨r.totBytes + p.len, gap block r.nowPostion i, l⟩ := by
  change (⟨r'.totBytes + p.len, gap block r'.nowPostion r'.prePointer,
    r'.packets r'.prePointer⟩ : Tail τ) = _
  rw [hput.totBytes, hput.packets, hput.nowPostion, hput.prePointer, Function.update_self]

theorem tail_place (hr : InRange r) (hle : ib ≤ block) (heq : r.place p ib = .ok r') :
    InRange (r'.count p) ∧ (r'.count p).tail = r.tail.place p ib := by
  rcases place_ok hr.now_lt hr.pre_lt hle heq with ⟨hstay, hput⟩ | ⟨hlt, hput⟩
  · refine ⟨hput.inRange hr hr.pre_lt, ?_⟩
    rw [tail_put hput]
    exact (if_pos (show ib ≤ r.tail.span from hstay)).symm
  · refine ⟨hput.inRange hr (shift_lt hr.now_lt (by omega)), ?_⟩
    have hspan : gap block r.nowPostion (shift block r.nowPostion ib.toNat) =
        if ib = block then 0 else ib.toNat := by
      split_ifs with hib
      · rw [hib, Int.toNat_natCast, shift_lap, gap_self]
      · exact gap_shift hr.now_lt (by omega)
    rw [tail_put hput, hspan]
    exact (if_neg (show ¬ib ≤ r.tail.span from not_le.mpr hlt)).symm

def HasPlace (last : List (Packet τ)) (_ : Packet τ) : Prop := last.length < qlen

instance (last : List (Packet τ)) (p : Packet τ) : Decidable (HasPlace last p) :=
  inferInstanceAs (Decidable (_ < _))

theorem target_lt (hr : InRange r) : (r.target ib).1 < block := by
  have hpos : (0 : ℤ) < block := by exact_mod_cast block_pos
  unfold Ring.target
  dsimp only
  split_ifs
  · exact hr.pre_lt
  · have hnonneg := Int.emod_nonneg (ib - (calInterval r.nowPostion r.prePointer : ℕ) + r.prePointer)
      hpos.ne'
    have hlt := Int.emod_lt_of_pos (ib - (calInterval r.nowPostion r.prePointer : ℕ) + r.prePointer)
      hpos
    omega

theorem target_iff (r : Ring τ) (p : Packet τ) (ib : ℤ) :
    (r.target ib).2 < qlen ↔ (ib ≤ r.tail.span → HasPlace r.tail.last p) := by
  have hlength : (r.packets r.prePointer).length = r.nowQlen r.prePointer := by simp [Ring.packets]
  change _ ↔ (ib ≤ (calInterval r.nowPostion r.prePointer : ℕ) →
    (r.packets r.prePointer).length < qlen)
  rw [hlength, Ring.target]
  split_ifs with hstay
  · simp [hstay]
  · simp [hstay, qlen]

theorem exists_place_iff (r : Ring τ) (p : Packet τ) (ib : ℤ) :
    (∃ r', r.place p ib = .ok r') ↔ (r.target ib).2 < qlen := by
  have hwrite : ∀ (r : Ring τ) i j b, (∃ r', r.write i j p b = .ok r') ↔ j < qlen := by
    intro r i j b
    unfold Ring.write
    split_ifs with hj
    · exact iff_of_true ⟨_, rfl⟩ hj
    · exact iff_of_false (by rintro ⟨_, h⟩; cases h) hj
  unfold Ring.place Ring.target
  dsimp only
  split_ifs
  · exact hwrite ..
  · exact hwrite ..

/-- Both pointers are blocks, and no block counts more packets than it has places. -/
structure Indexed (r : Ring τ) : Prop extends InRange r where
  nowQlen_le : ∀ i, r.nowQlen i ≤ qlen

theorem indexed_new (mem : ℕ → ℕ → Packet τ) : Indexed (Ring.new mem) :=
  ⟨⟨block_pos, block_pos⟩, fun _ => Nat.zero_le _⟩

theorem update_le {f : ℕ → ℕ} (hf : ∀ i, f i ≤ qlen) {i m : ℕ} (hm : m ≤ qlen) (k : ℕ) :
    Function.update f i m k ≤ qlen := by
  rw [Function.update_apply]
  split_ifs
  · exact hm
  · exact hf k

theorem Indexed.place (h : Indexed r) (hle : ib ≤ block) (heq : r.place p ib = .ok r') :
    Indexed (r'.count p) := by
  refine ⟨(tail_place h.toInRange hle heq).1, ?_⟩
  have hwrite : ∀ {r r' : Ring τ} {i j b}, (∀ k, r.nowQlen k ≤ qlen) →
      r.write i j p b = .ok r' → ∀ k, r'.nowQlen k ≤ qlen := by
    intro r r' i j b hr heq
    unfold Ring.write at heq
    split_ifs at heq with hj
    rw [← Except.ok.inj heq]
    exact update_le hr hj
  change ∀ k, r'.nowQlen k ≤ qlen
  unfold Ring.place at heq
  dsimp only at heq
  split_ifs at heq
  · exact hwrite h.nowQlen_le heq
  · refine hwrite ?_ heq
    exact h.nowQlen_le

theorem Indexed.deRing (h : Indexed r) (n : ℕ) : Indexed (deRing n r).2 := by
  refine ⟨h.toInRange.deRing n, ?_⟩
  unfold RingSim.deRing
  dsimp only
  split_ifs
  · exact update_le h.nowQlen_le (Nat.zero_le _)
  · exact h.nowQlen_le

theorem Indexed.statusUpdate (h : Indexed r) : Indexed (statusUpdate r) :=
  ⟨h.toInRange.statusUpdate, update_le h.nowQlen_le (Nat.zero_le _)⟩

theorem Indexed.finish {s : Sim τ} (h : Indexed s.ring) : Indexed s.finish.ring := by
  unfold Sim.finish
  split_ifs
  · exact (h.deRing s.totRound).statusUpdate
  · exact h

theorem Indexed.printAccesses {s : Sim τ} (h : Indexed s.ring) {a : ℕ × ℕ}
    (ha : a ∈ s.printAccesses) : InArray a := by
  unfold Sim.printAccesses at ha
  split_ifs at ha
  · obtain ⟨k, hk, rfl⟩ := List.mem_map.mp ha
    exact ⟨h.now_lt, (List.mem_range.mp hk).trans_le (h.nowQlen_le _)⟩
  · cases ha

section Ticks

variable [LE τ] {A : RingNum τ} {s s' : Sim τ} {n : ℕ} {Q : List (Packet τ) → Packet τ → Prop}
  {t : Tail τ}

/-- `Q` holds of each packet that `in_ring` puts into the last block, and of those that are in
this block then: `in_ring` is called at tick `n`. -/
def EachJoined (A : RingNum τ) (n : ℕ) (Q : List (Packet τ) → Packet τ → Prop) :
    Tail τ → List (Packet τ) → Prop
  | _, [] => True
  | t, p :: l =>
    if A.expired p.arrivalTime n then EachJoined A n Q t l
    else if A.tooLong p.len then True
    else if block < A.intervalBlock (p.len + t.tot) then True
    else (A.intervalBlock (p.len + t.tot) ≤ t.span → Q t.last p) ∧
      EachJoined A n Q (t.place p (A.intervalBlock (p.len + t.tot))) l

instance decidableEachJoined (A : RingNum τ) (n : ℕ) (Q : List (Packet τ) → Packet τ → Prop)
    [∀ last p, Decidable (Q last p)] :
    (t : Tail τ) → (l : List (Packet τ)) → Decidable (EachJoined A n Q t l)
  | _, [] => isTrue trivial
  | t, p :: l =>
    have := decidableEachJoined A n Q t l
    have := decidableEachJoined A n Q (t.place p (A.intervalBlock (p.len + t.tot))) l
    inferInstanceAs (Decidable (if A.expired p.arrivalTime n then EachJoined A n Q t l
      else if A.tooLong p.len then True
      else if block < A.intervalBlock (p.len + t.tot) then True
      else (A.intervalBlock (p.len + t.tot) ≤ t.span → Q t.last p) ∧
        EachJoined A n Q (t.place p (A.intervalBlock (p.len + t.tot))) l))

theorem eachJoined_expired (he : A.expired p.arrivalTime n) :
    EachJoined A n Q t (p :: l) ↔ EachJoined A n Q t l := by
  rw [EachJoined, if_pos he]

theorem eachJoined_stop (he : ¬A.expired p.arrivalTime n)
    (hstop : A.tooLong p.len ∨ block < A.intervalBlock (p.len + t.tot)) :
    EachJoined A n Q t (p :: l) := by
  rw [EachJoined, if_neg he]
  by_cases hlong : A.tooLong p.len
  · rw [if_pos hlong]
    trivial
  · rw [if_neg hlong, if_pos (hstop.resolve_left hlong)]
    trivial

theorem eachJoined_place (he : ¬A.expired p.arrivalTime n) (hlong : ¬A.tooLong p.len)
    (hfit : A.intervalBlock (p.len + t.tot) ≤ block) : EachJoined A n Q t (p :: l) ↔
      (A.intervalBlock (p.len + t.tot) ≤ t.span → Q t.last p) ∧
        EachJoined A n Q (t.place p (A.intervalBlock (p.len + t.tot))) l := by
  rw [EachJoined, if_neg he, if_neg hlong, if_neg (not_lt.mpr hfit)]

theorem inRingLoop_place (he : ¬A.expired p.arrivalTime s.totRound) (hlong : ¬A.tooLong p.len)
    (hfit : s.needs A p ≤ block) : inRingLoop A (p :: l) s =
      match s.ring.place p (s.needs A p) with
      | .error e => .error e
      | .ok ring => inRingLoop A l (s.placedIn p ring) := by
  rw [inRingLoop, if_neg he, if_neg hlong]
  exact if_neg (not_lt.mpr hfit)

theorem inRingAccesses_place (he : ¬A.expired p.arrivalTime s.totRound)
    (hlong : ¬A.tooLong p.len) (hfit : s.needs A p ≤ block) : inRingAccesses A (p :: l) s =
      s.ring.target (s.needs A p) ::
        match s.ring.place p (s.needs A p) with
        | .error _ => []
        | .ok ring => inRingAccesses A l (s.placedIn p ring) := by
  rw [inRingAccesses, if_neg he, if_neg hlong, if_neg (not_lt.mpr hfit)]

theorem inRingLoop_stop (he : ¬A.expired p.arrivalTime s.totRound)
    (hstop : A.tooLong p.len ∨ block < s.needs A p) :
    inRingAccesses A (p :: l) s = [] ∧ ∃ s', inRingLoop A (p :: l) s = .ok s' := by
  rw [inRingAccesses, inRingLoop, if_neg he, if_neg he]
  by_cases hlong : A.tooLong p.len
  · rw [if_pos hlong, if_pos hlong]
    exact ⟨rfl, _, rfl⟩
  · have hfull := hstop.resolve_left hlong
    rw [if_neg hlong, if_neg hlong]
    exact ⟨if_pos hfull, _, if_pos hfull⟩

/-- The loop of `in_ring` writes to places of the array only, exactly when each packet that it
puts into the last block finds a place there, and then it comes to its end. -/
theorem inRingLoop_accesses (h : Indexed s.ring) :
    ((∀ a ∈ inRingAccesses A l s, InArray a) ↔
      EachJoined A s.totRound HasPlace s.ring.tail l) ∧
    (EachJoined A s.totRound HasPlace s.ring.tail l ↔ ∃ s', inRingLoop A l s = .ok s') := by
  induction l generalizing s with
  | nil => exact ⟨iff_of_true (by simp [inRingAccesses]) trivial, iff_of_true trivial ⟨_, rfl⟩⟩
  | cons p l ih =>
    by_cases he : A.expired p.arrivalTime s.totRound
    · rw [inRingAccesses, inRingLoop, if_pos he, if_pos he, eachJoined_expired he]
      exact ih (s := s.discard p) h
    by_cases hstop : A.tooLong p.len ∨ block < s.needs A p
    · obtain ⟨haccesses, hok⟩ := inRingLoop_stop (l := l) he hstop
      have hjoin : EachJoined A s.totRound HasPlace s.ring.tail (p :: l) :=
        eachJoined_stop he hstop
      rw [haccesses]
      exact ⟨iff_of_true (by simp) hjoin, iff_of_true hjoin hok⟩
    obtain ⟨hlong, hfull⟩ := not_or.mp hstop
    have hfit : s.needs A p ≤ block := not_lt.mp hfull
    have hunfold : EachJoined A s.totRound HasPlace s.ring.tail (p :: l) ↔
        (s.ring.target (s.needs A p)).2 < qlen ∧
          EachJoined A s.totRound HasPlace (s.ring.tail.place p (s.needs A p)) l :=
      (eachJoined_place (t := s.ring.tail) he hlong hfit).trans
        (and_congr_left' (target_iff _ p _).symm)
    rw [inRingAccesses_place he hlong hfit, inRingLoop_place he hlong hfit, hunfold,
      List.forall_mem_cons]
    cases hplace : s.ring.place p (s.needs A p) with
    | error e =>
      have hfar : ¬(s.ring.target (s.needs A p)).2 < qlen := by
        rw [← exists_place_iff _ p, hplace]
        rintro ⟨_, h⟩
        cases h
      exact ⟨iff_of_false (fun h => hfar h.1.2) fun h => hfar h.1,
        iff_of_false (fun h => hfar h.1) (by rintro ⟨_, h⟩; cases h)⟩
    | ok ring =>
      have htarget : (s.ring.target (s.needs A p)).2 < qlen :=
        (exists_place_iff _ p _).mp ⟨ring, hplace⟩
      have htail := (tail_place h.toInRange hfit hplace).2
      obtain ⟨haccesses, hok⟩ := ih (s := s.placedIn p ring) (h.place hfit hplace)
      change (_ ↔ EachJoined A s.totRound HasPlace (ring.count p).tail l) at haccesses
      change (EachJoined A s.totRound HasPlace (ring.count p).tail l ↔ _) at hok
      rw [htail] at haccesses hok
      exact ⟨and_congr (iff_of_true ⟨target_lt h.toInRange, htarget⟩ htarget) haccesses,
        (and_iff_right htarget).trans hok⟩

theorem Indexed.inRing (h : Indexed s.ring) (heq : inRing A s = .ok s') : Indexed s'.ring :=
  inRingLoop_rule (I := fun _ t => Indexed t.ring) (J := fun t => Indexed t.ring)
    (fun _ _ _ h _ => h) (fun _ _ _ _ h _ _ hfit hplace => h.place hfit hplace)
    (fun _ _ _ h _ _ => h) (fun _ _ _ h _ _ _ => h) (fun _ h => h) h heq

theorem Indexed.tick (h : Indexed s.ring) {c o : Unit} (heq : RingSim.tick A s c = .ok (o, s')) :
    Indexed s'.ring :=
  tick_rule (I := fun s => Indexed s.ring) h
    (fun _ _ ht => Indexed.inRing (s := s.begin A) h ht) (fun _ h => h.finish) heq

/-- In the next tick each packet that `in_ring` puts into the last block finds a place there. -/
def Sim.Joins (A : RingNum τ) (s : Sim τ) (_ : Unit) : Prop :=
  arriving A (s.totRound + 1) s.input ≠ [] →
    EachJoined A (s.totRound + 1) HasPlace s.ring.tail (s.begin A).inque

instance (A : RingNum τ) (s : Sim τ) (c : Unit) : Decidable (s.Joins A c) := by
  unfold Sim.Joins
  infer_instance

theorem tick_isOk (h : Indexed s.ring) (c : Unit) :
    s.Joins A c ↔ ∃ o s', tick A s c = .ok (o, s') := by
  have hbegin : testInput A s.input false { s with totRound := s.totRound + 1 } =
      if arriving A (s.totRound + 1) s.input = [] then .ok (s.begin A)
      else inRing A (s.begin A) := testInput_outer A s.input { s with totRound := s.totRound + 1 }
  have hring := (inRingLoop_accesses (A := A) (l := (s.begin A).inque) (s := s.begin A) h).2
  change (EachJoined A (s.totRound + 1) HasPlace s.ring.tail _ ↔
    ∃ s', inRing A (s.begin A) = .ok s') at hring
  unfold Sim.Joins tick testFunc
  rw [hbegin]
  by_cases hnone : arriving A (s.totRound + 1) s.input = []
  · rw [if_pos hnone]
    exact iff_of_true (fun hne => absurd hnone hne) ⟨_, _, rfl⟩
  · rw [if_neg hnone, hring]
    cases hrun : inRing A (s.begin A) with
    | error e =>
      refine iff_of_false (fun hall => ?_) (by rintro ⟨_, _, h⟩; cases h)
      obtain ⟨_, h⟩ := hall hnone
      cases h
    | ok t => exact iff_of_true (fun _ => ⟨t, rfl⟩) ⟨_, _, rfl⟩

theorem accesses_iff (h : Indexed s.ring) (c : Unit) :
    (∀ a ∈ s.accesses A, InArray a) ↔ s.Joins A c := by
  have hring := inRingLoop_accesses (A := A) (l := (s.begin A).inque) (s := s.begin A) h
  unfold Sim.accesses Sim.Joins
  by_cases hnone : arriving A (s.totRound + 1) s.input = []
  · rw [if_pos hnone]
    exact iff_of_true (fun a ha => Indexed.printAccesses (s := s.begin A) h ha)
      fun hne => absurd hnone hne
  · rw [if_neg hnone, forall_prop_of_true hnone]
    refine .trans ?_ hring.1
    refine ⟨fun hall a ha => hall a (List.mem_append_left _ ha), fun hall a ha => ?_⟩
    rcases List.mem_append.mp ha with ha | ha
    · exact hall a ha
    · split at ha
      · cases ha
      · rename_i t ht
        exact (Indexed.inRing (s := s.begin A) h ht).printAccesses ha

end Ticks

theorem history_extends {h h' : List (Unit × Unit)} (hlen : h'.length < h.length) :
    h' ++ [((), ())] <+: h := by
  have heq : h' ++ [((), ())] = h.take (h'.length + 1) := by
    refine List.ext_getElem ?_ fun _ _ _ => Subsingleton.elim _ _
    rw [List.length_append, List.length_singleton, List.length_take]
    omega
  exact heq ▸ List.take_prefix _ _

/-- In the first `n` ticks all accesses to `ring_queue` are inside it, and no block counts more
packets than it has places, exactly when `n` ticks can be run in each of which every packet that
`in_ring` puts into the last block finds a place there. -/
theorem accesses_in_array_iff [LE τ] (A : RingNum τ) (mem : ℕ → ℕ → Packet τ)
    (input : List (Packet τ)) (n : ℕ) :
    (∀ h s, Run (tick A) (Sim.new mem input) h s → h.length < n →
      (∀ i, s.ring.nowQlen i ≤ qlen) ∧ ∀ a ∈ s.accesses A, InArray a) ↔
    ∃ h s, h.length = n ∧ GuardedRun (tick A) (Sim.Joins A) (Sim.new mem input) h s := by
  have hindexed : ∀ {C : Sim τ → Unit → Prop} {h s},
      GuardedRun (tick A) C (Sim.new mem input) h s → Indexed s.ring := fun run =>
    run.keeps (I := fun s => Indexed s.ring) (indexed_new mem) fun _ _ _ _ h _ heq => h.tick heq
  constructor
  · induction n with
    | zero => exact fun _ => ⟨[], _, rfl, .nil⟩
    | succ n ih =>
      intro hall
      obtain ⟨h, s, rfl, run⟩ := ih fun h s run hlt => hall h s run (by omega)
      have hsafe := (hall h s (run.mono fun _ _ _ => trivial) (by omega)).2
      have hjoins : s.Joins A () := (accesses_iff (hindexed run) ()).mp hsafe
      obtain ⟨o, s', heq⟩ := (tick_isOk (hindexed run) ()).mp hjoins
      exact ⟨h ++ [((), o)], s', by simp, .snoc run hjoins heq⟩
  -- the guarded run goes through every state of every shorter run
  · rintro ⟨h, s, rfl, run⟩ h' s' run' hlt
    obtain ⟨t, run₁⟩ := run.truncate (history_extends hlt)
    obtain ⟨u, run₂, hjoins, -⟩ := run₁.last
    obtain rfl := run'.unique run₂
    exact ⟨(hindexed run').nowQlen_le, (accesses_iff (hindexed run') ()).mpr hjoins⟩

def crowdSample : List (Packet ℚ) := List.replicate 81 ⟨0, 1⟩

/-- They all arrive in the first tick and go into the first block. -/
theorem crowd_leaves_block :
    (∀ p ∈ crowdSample, 0 ≤ p.len) ∧
    ¬∀ h s, Run (tick ringSample) (Sim.new memSample crowdSample) h s →
      ∀ a ∈ s.accesses ringSample, InArray a := by
  have hlast : (0, 80) ∈ (Sim.new memSample crowdSample).accesses ringSample := by decide +kernel
  refine ⟨by decide, fun hall => ?_⟩
  exact absurd (hall [] _ .nil _ hlast) (by decide)

end MeasurementLimiter.RingSim
