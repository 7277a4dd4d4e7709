import MeasurementLimiter.SimSpec

namespace MeasurementLimiter.RingSim

open Cyclic Runs

variable {τ : Type} {r r' : Ring τ} {p : Packet τ} {ib : ℤ} {l : List (Packet τ)} {i : ℕ}

structure InRange (r : Ring τ) : Prop where
  now_lt : r.nowPostion < block
  pre_lt : r.prePointer < block

structure Consistent (r : Ring τ) : Prop where
  total : r.totBytes = ∑ i ∈ Finset.range block, bytes (r.packets i)
  blocks : ∀ i < block, r.nowBytes i = bytes (r.packets i)
  inside : ∀ i < block, r.packets i ≠ [] → gap block r.nowPostion i ≤ r.span

def Positive (r : Ring τ) : Prop := ∀ i < block, ∀ p ∈ r.packets i, 0 < p.len

theorem bytes_nonneg (h : ∀ p ∈ l, 0 < p.len) : 0 ≤ bytes l :=
  List.sum_nonneg fun b hb => by
    obtain ⟨p, hp, rfl⟩ := List.mem_map.mp hb
    exact (h p hp).le

theorem bytes_pos (h : ∀ p ∈ l, 0 < p.len) (hne : l ≠ []) : 0 < bytes l := by
  obtain ⟨p, l, rfl⟩ := List.exists_cons_of_ne_nil hne
  have hp := h p List.mem_cons_self
  have hl := bytes_nonneg fun p' hp' => h p' (List.mem_cons_of_mem p hp')
  unfold bytes at hl ⊢
  rw [List.map_cons, List.sum_cons]
  omega

theorem sum_bytes_update (f : ℕ → List (Packet τ)) (hi : i < block) (l : List (Packet τ)) :
    ∑ j ∈ Finset.range block, bytes (Function.update f i l j) + bytes (f i) =
      ∑ j ∈ Finset.range block, bytes (f j) + bytes l := by
  have hmem : i ∈ Finset.range block := Finset.mem_range.mpr hi
  have hupdate : ∀ j, bytes (Function.update f i l j) =
      Function.update (fun j => bytes (f j)) i (bytes l) j :=
    fun j => Function.apply_update (fun _ => bytes) f i l j
  simp only [hupdate]
  rw [Finset.sum_update_of_mem hmem, ← Finset.sum_sdiff (Finset.singleton_subset_iff.mpr hmem),
    Finset.sum_singleton]
  ring

theorem Positive.nonneg (h : Positive r) : 0 ≤ ∑ i ∈ Finset.range block, bytes (r.packets i) :=
  Finset.sum_nonneg fun i hi => bytes_nonneg (h i (Finset.mem_range.mp hi))

theorem Consistent.empty (h : Consistent r) (hpos : Positive r) (htot : r.totBytes = 0)
    (hi : i < block) : r.packets i = [] := by
  by_contra hne
  have hle := Finset.single_le_sum (f := fun j => bytes (r.packets j))
    (fun j hj => bytes_nonneg (hpos j (Finset.mem_range.mp hj))) (Finset.mem_range.mpr hi)
  have hlt := bytes_pos (hpos i hi) hne
  have htotal := h.total
  omega

theorem packets_new (mem : ℕ → ℕ → Packet τ) (i : ℕ) : (Ring.new mem).packets i = [] := rfl

theorem consistent_new (mem : ℕ → ℕ → Packet τ) : Consistent (Ring.new mem) := by
  refine ⟨?_, fun i _ => ?_, fun i _ hne => absurd (packets_new mem i) hne⟩
  · simp only [packets_new, bytes_nil, Finset.sum_const_zero]
    rfl
  · rw [packets_new, bytes_nil]
    rfl

def Ring.count (r : Ring τ) (p : Packet τ) : Ring τ := { r with totBytes := r.totBytes + p.len }

theorem Ring.Put.inRange {b : ℤ} (h : r.Put r' i l b) (hr : InRange r) (hi : i < block) :
    InRange (r'.count p) := by
  refine ⟨?_, ?_⟩
  · change r'.nowPostion < block
    rw [h.nowPostion]
    exact hr.now_lt
  · change r'.prePointer < block
    rw [h.prePointer]
    exact hi

theorem Ring.Put.positive {b : ℤ} (h : r.Put r' i l b) (hr : Positive r)
    (hl : ∀ p ∈ l, 0 < p.len) : Positive (r'.count p) := by
  intro j hj p' hp'
  change p' ∈ r'.packets j at hp'
  rw [h.packets, Function.update_apply] at hp'
  split_ifs at hp'
  · exact hl p' hp'
  · exact hr j hj p' hp'

theorem Consistent.put (h : Consistent r) (hi : i < block)
    (hput : r.Put r' i (r.packets i ++ [p]) (r.nowBytes i + p.len))
    (hlast : ∀ j < block, r.packets j ≠ [] → gap block r.nowPostion j ≤ gap block r.nowPostion i) :
    Consistent (r'.count p) := by
  have hpackets : (r'.count p).packets = Function.update r.packets i (r.packets i ++ [p]) :=
    hput.packets
  have hspan : (r'.count p).span = gap block r.nowPostion i := by
    change gap block r'.nowPostion r'.prePointer = _
    rw [hput.nowPostion, hput.prePointer]
  refine ⟨?_, fun j hj => ?_, fun j hj hne => ?_⟩
  · have hsum := sum_bytes_update r.packets hi (r.packets i ++ [p])
    rw [bytes_append, bytes_singleton] at hsum
    have htotal := h.total
    rw [hpackets]
    change r'.totBytes + p.len = _
    rw [hput.totBytes]
    linarith
  · have hbytes : (r'.count p).nowBytes = Function.update r.nowBytes i (r.nowBytes i + p.len) :=
      hput.nowBytes
    rw [hbytes, hpackets, Function.update_apply, Function.update_apply]
    split_ifs with hji
    · rw [bytes_append, bytes_singleton, h.blocks i hi]
    · exact h.blocks j hj
  · rw [hpackets, Function.update_apply] at hne
    rw [hspan]
    change gap block r'.nowPostion j ≤ _
    rw [hput.nowPostion]
    split_ifs at hne with hji
    · rw [hji]
    · exact hlast j hj hne

theorem Consistent.put_of_place (h : Consistent r) (hr : InRange r) (hle : ib ≤ block)
    (hwrap : ib = block → ∀ j < block, r.packets j = []) (heq : r.place p ib = .ok r') :
    ∃ i < block, r.Put r' i (r.packets i ++ [p]) (r.nowBytes i + p.len) ∧
      (∀ j < block, r.packets j ≠ [] → gap block r.nowPostion j ≤ gap block r.nowPostion i) ∧
      (ib ≠ block → ib ≤ gap block r.nowPostion i) := by
  rcases place_ok hr.now_lt hr.pre_lt hle heq with ⟨hstay, hput⟩ | ⟨hlt, hput⟩
  · exact ⟨_, hr.pre_lt, hput, h.inside, fun _ => hstay⟩
  · have htarget : shift block r.nowPostion ib.toNat < block :=
      shift_lt hr.now_lt (by omega)
    have hlast : ∀ j < block, r.packets j ≠ [] → ib ≠ block ∧
        gap block r.nowPostion j ≤ r.span := fun j hj hne =>
      ⟨fun hib => hne (hwrap hib j hj), h.inside j hj hne⟩
    have hgap : ib ≠ block → gap block r.nowPostion (shift block r.nowPostion ib.toNat) = ib.toNat :=
      fun hne => gap_shift hr.now_lt (by omega)
    have hempty : r.packets (shift block r.nowPostion ib.toNat) = [] := by
      by_contra hne
      obtain ⟨hib, hinside⟩ := hlast _ htarget hne
      rw [hgap hib] at hinside
      omega
    refine ⟨_, htarget, ?_, fun j hj hne => ?_, fun hne => ?_⟩
    · rwa [hempty, h.blocks _ htarget, hempty, bytes_nil, zero_add, List.nil_append]
    · obtain ⟨hib, hinside⟩ := hlast j hj hne
      rw [hgap hib]
      omega
    · rw [hgap hne]
      omega

theorem InRange.deRing (h : InRange r) (n : ℕ) : InRange (deRing n r).2 := by
  obtain ⟨hnow, hpre⟩ := deRing_pointers n r
  exact ⟨hnow ▸ h.now_lt, hpre ▸ h.pre_lt⟩

theorem InRange.statusUpdate (h : InRange r) : InRange (statusUpdate r) := by
  obtain ⟨hnow, hpre, -⟩ := statusUpdate_pointers h.now_lt h.pre_lt
  exact ⟨hnow ▸ shift_lt h.now_lt block_pos, hpre⟩

theorem Positive.clear (h : Positive r) {j : ℕ}
    (hr' : r'.packets = Function.update r.packets j []) : Positive r' := by
  intro i hi p hp
  rw [hr', Function.update_apply] at hp
  split_ifs at hp
  · cases hp
  · exact h i hi p hp

theorem Consistent.deRing (h : Consistent r) (hr : InRange r) (n : ℕ) :
    Consistent (deRing n r).2 := by
  obtain ⟨hnow, hpre⟩ := deRing_pointers n r
  refine ⟨?_, fun i hi => ?_, fun i hi hne => ?_⟩
  · have hsum := sum_bytes_update r.packets hr.now_lt []
    rw [bytes_nil, add_zero] at hsum
    rw [deRing_totBytes, deRing_packets, h.total]
    linarith
  · rw [deRing_nowBytes, deRing_packets, Function.update_apply]
    split_ifs with hempty hin hin
    · rw [hin, h.blocks _ hr.now_lt, hempty]
    · exact h.blocks i hi
    · rw [hin, Function.update_self, bytes_nil]
    · rw [Function.update_of_ne hin]
      exact h.blocks i hi
  · rw [deRing_packets, Function.update_apply] at hne
    split_ifs at hne with hin
    · exact absurd rfl hne
    · rw [span_eq, hnow, hpre]
      exact h.inside i hi hne

theorem Consistent.statusUpdate (h : Consistent r) (hr : InRange r)
    (hempty : r.packets r.nowPostion = []) : Consistent (statusUpdate r) := by
  obtain ⟨hnow, -, hspan⟩ := statusUpdate_pointers hr.now_lt hr.pre_lt
  have hpackets : (RingSim.statusUpdate r).packets = r.packets := by
    rw [statusUpdate_packets, ← hempty, Function.update_eq_self]
  refine ⟨?_, fun i hi => ?_, fun i hi hne => ?_⟩
  · rw [hpackets]
    exact h.total
  · rw [hpackets]
    exact h.blocks i hi
  · rw [hpackets] at hne
    have hinside := h.inside i hi hne
    have hahead : 1 ≤ gap block r.nowPostion i := by
      rw [Nat.one_le_iff_ne_zero, ne_eq, gap_eq_zero hr.now_lt]
      rintro rfl
      exact hne hempty
    rw [hnow, hspan, gap_shift_left hr.now_lt hi hahead]
    omega

theorem Consistent.statusUpdate_iff (h : Consistent r) (hr : InRange r) (hpos : Positive r) :
    Consistent (RingSim.statusUpdate r) ↔ r.nowQlen r.nowPostion = 0 := by
  rw [← packets_eq_nil]
  refine ⟨fun h' => ?_, h.statusUpdate hr⟩
  have hblock := h'.blocks _ hr.now_lt
  rw [statusUpdate_packets, Function.update_self, bytes_nil] at hblock
  by_contra hne
  have hlt := bytes_pos (hpos _ hr.now_lt) hne
  rw [← h.blocks _ hr.now_lt] at hlt
  exact absurd hblock hlt.ne'

structure Known (s : Sim τ) : Prop where
  inRange : InRange s.ring
  positive : Positive s.ring
  lengths : ∀ p ∈ s.inque, 0 < p.len

theorem known_new (mem : ℕ → ℕ → Packet τ) (input : List (Packet τ)) :
    Known (Sim.new mem input) := by
  refine ⟨⟨block_pos, block_pos⟩, fun i _ p hp => ?_, by simp [Sim.new]⟩
  change p ∈ (Ring.new mem).packets i at hp
  rw [packets_new] at hp
  cases hp

section Calls

variable [LE τ] {A : RingNum τ} {s s' : Sim τ}

/-- `P` holds of each packet that `in_ring` places, with the bytes that it finds in the ring and
the blocks that it needs: `in_ring` is called at tick `n` with `tot` bytes in the ring. -/
def EachPlaced (A : RingNum τ) (n : ℕ) (P : ℤ → ℤ → Prop) : ℤ → List (Packet τ) → Prop
  | _, [] => True
  | tot, p :: l =>
    if A.expired p.arrivalTime n then EachPlaced A n P tot l
    else if A.tooLong p.len then True
    else if block < A.intervalBlock (p.len + tot) then True
    else P tot (A.intervalBlock (p.len + tot)) ∧ EachPlaced A n P (tot + p.len) l

instance decidableEachPlaced (A : RingNum τ) (n : ℕ) (P : ℤ → ℤ → Prop) [∀ a b, Decidable (P a b)] :
    (tot : ℤ) → (l : List (Packet τ)) → Decidable (EachPlaced A n P tot l)
  | _, [] => isTrue trivial
  | tot, p :: l =>
    have := decidableEachPlaced A n P tot l
    have := decidableEachPlaced A n P (tot + p.len) l
    inferInstanceAs (Decidable (if A.expired p.arrivalTime n then EachPlaced A n P tot l
      else if A.tooLong p.len then True
      else if block < A.intervalBlock (p.len + tot) then True
      else P tot (A.intervalBlock (p.len + tot)) ∧ EachPlaced A n P (tot + p.len) l))

section EachPlaced

variable {n : ℕ} {P : ℤ → ℤ → Prop} {tot : ℤ}

theorem eachPlaced_expired (he : A.expired p.arrivalTime n) :
    EachPlaced A n P tot (p :: l) ↔ EachPlaced A n P tot l := by
  rw [EachPlaced, if_pos he]

theorem eachPlaced_stop (he : ¬A.expired p.arrivalTime n)
    (hstop : A.tooLong p.len ∨ block < A.intervalBlock (p.len + tot)) :
    EachPlaced A n P tot (p :: l) := by
  rw [EachPlaced, if_neg he]
  by_cases hlong : A.tooLong p.len
  · rw [if_pos hlong]
    trivial
  · rw [if_neg hlong, if_pos (hstop.resolve_left hlong)]
    trivial

theorem eachPlaced_place (he : ¬A.expired p.arrivalTime n) (hlong : ¬A.tooLong p.len)
    (hfit : A.intervalBlock (p.len + tot) ≤ block) : EachPlaced A n P tot (p :: l) ↔
      P tot (A.intervalBlock (p.len + tot)) ∧ EachPlaced A n P (tot + p.len) l := by
  rw [EachPlaced, if_neg he, if_neg hlong, if_neg (not_lt.mpr hfit)]

theorem EachPlaced.mono {Q : ℤ → ℤ → Prop} (hPQ : ∀ a b, P a b → Q a b)
    (h : EachPlaced A n P tot l) : EachPlaced A n Q tot l := by
  induction l generalizing tot with
  | nil => trivial
  | cons p l ih =>
    by_cases he : A.expired p.arrivalTime n
    · rw [eachPlaced_expired he] at h ⊢
      exact ih h
    · by_cases hstop : A.tooLong p.len ∨ block < A.intervalBlock (p.len + tot)
      · exact eachPlaced_stop he hstop
      · obtain ⟨hlong, hfit⟩ := not_or.mp hstop
        rw [eachPlaced_place he hlong (not_lt.mp hfit)] at h ⊢
        exact ⟨hPQ _ _ h.1, ih h.2⟩

end EachPlaced

/-- No packet that `in_ring` places needs exactly `block` blocks, unless the ring is empty. -/
def NoWrap (A : RingNum τ) (n : ℕ) : ℤ → List (Packet τ) → Prop :=
  EachPlaced A n fun tot needs => needs = block → tot = 0

instance (A : RingNum τ) (n : ℕ) (tot : ℤ) (l : List (Packet τ)) :
    Decidable (NoWrap A n tot l) := by
  unfold NoWrap
  infer_instance

/-- After a jump that came round to a ring with packets: the pointers are the same, and the
total counts more than their block holds.  No later packet of the loop mends this. -/
structure Wrapped (A : RingNum τ) (r : Ring τ) : Prop where
  same : r.prePointer = r.nowPostion
  more : bytes (r.packets r.nowPostion) < r.totBytes
  pos : 0 < r.totBytes
  full : block ≤ A.intervalBlock r.totBytes

theorem Wrapped.not_consistent (h : Wrapped A r) (hr : InRange r) : ¬Consistent r := by
  intro hc
  have hspan : r.span = 0 := by
    rw [span_eq, h.same, gap_self]
  have hothers : ∀ j ∈ Finset.range block, j ≠ r.nowPostion → bytes (r.packets j) = 0 := by
    intro j hj hne
    have hempty : r.packets j = [] := by
      by_contra hne'
      have hle := hc.inside j (Finset.mem_range.mp hj) hne'
      rw [hspan, Nat.le_zero, gap_eq_zero hr.now_lt] at hle
      exact hne hle.symm
    rw [hempty, bytes_nil]
  have hsum := Finset.sum_eq_single_of_mem _ (Finset.mem_range.mpr hr.now_lt) hothers
  have hmore := h.more
  rw [hc.total, hsum] at hmore
  exact lt_irrefl _ hmore

theorem wrapped_of_place (hr : InRange r) (htot : 0 < r.totBytes) (hp : 0 < p.len)
    (hib : A.intervalBlock (p.len + r.totBytes) = block)
    (heq : r.place p (A.intervalBlock (p.len + r.totBytes)) = .ok r') :
    Wrapped A (r'.count p) ∧ InRange (r'.count p) := by
  have hspan : r.span < block := gap_lt hr.pre_lt
  rw [hib] at heq
  -- a packet that asks for the whole ring is written over the block that is printed next
  rcases place_ok hr.now_lt hr.pre_lt le_rfl heq with ⟨hle, -⟩ | ⟨-, hput⟩
  · omega
  · rw [Int.toNat_natCast, shift_lap] at hput
    have hpackets : (r'.count p).packets r.nowPostion = [p] := by
      change r'.packets r.nowPostion = _
      rw [hput.packets, Function.update_self]
    have htotal : (r'.count p).totBytes = r.totBytes + p.len := by
      change r'.totBytes + p.len = _
      rw [hput.totBytes]
    have hnow : (r'.count p).nowPostion = r.nowPostion := hput.nowPostion
    refine ⟨⟨hput.prePointer.trans hnow.symm, ?_, ?_, ?_⟩, hput.inRange hr hr.now_lt⟩
    · rw [hnow, hpackets, bytes_singleton, htotal]
      omega
    · omega
    · rw [htotal, add_comm, hib]

/-- What the loop of `in_ring`, started in state `s`, has made of the counters when the packets
`l` are still to come: they are right, or a jump came round. -/
structure Counting (A : RingNum τ) (s : Sim τ) (l : List (Packet τ)) (t : Sim τ) : Prop where
  inRange : InRange t.ring
  round : t.totRound = s.totRound
  lengths : ∀ p ∈ l, 0 < p.len
  counters : (Consistent t.ring ∧ Positive t.ring ∧
      (NoWrap A s.totRound s.ring.totBytes s.inque ↔ NoWrap A s.totRound t.ring.totBytes l)) ∨
    (Wrapped A t.ring ∧ ¬NoWrap A s.totRound s.ring.totBytes s.inque)

theorem Counting.expired {t : Sim τ} (c : Counting A s (p :: l) t)
    (he : A.expired p.arrivalTime t.totRound) : Counting A s l (t.discard p) := by
  refine ⟨c.inRange, c.round, fun p' hp' => c.lengths p' (List.mem_cons_of_mem p hp'), ?_⟩
  rcases c.counters with ⟨hc, hpos, hiff⟩ | hw
  · exact .inl ⟨hc, hpos, hiff.trans (eachPlaced_expired (c.round ▸ he))⟩
  · exact .inr hw

theorem Counting.place {t : Sim τ} {ring : Ring τ} (c : Counting A s (p :: l) t)
    (he : ¬A.expired p.arrivalTime t.totRound) (hlong : ¬A.tooLong p.len)
    (hfit : t.needs A p ≤ block) (heq : t.ring.place p (t.needs A p) = .ok ring) :
    Counting A s l (t.placedIn p ring) := by
  have hp := c.lengths p List.mem_cons_self
  have hrest := fun p' hp' => c.lengths p' (List.mem_cons_of_mem p hp')
  rcases c.counters with ⟨hc, hpos, hiff⟩ | ⟨hw, hno⟩
  · have hunfold : NoWrap A s.totRound t.ring.totBytes (p :: l) ↔
        (t.needs A p = block → t.ring.totBytes = 0) ∧
          NoWrap A s.totRound (t.ring.totBytes + p.len) l :=
      eachPlaced_place (c.round ▸ he) hlong hfit
    by_cases hwrap : t.needs A p = block → t.ring.totBytes = 0
    · obtain ⟨i, hi, hput, hlast, -⟩ := hc.put_of_place c.inRange hfit
        (fun hib j hj => hc.empty hpos (hwrap hib) hj) heq
      have htot : (ring.count p).totBytes = t.ring.totBytes + p.len := by
        change ring.totBytes + p.len = _
        rw [hput.totBytes]
      refine ⟨hput.inRange c.inRange hi, c.round, hrest, .inl ⟨hc.put hi hput hlast, ?_, ?_⟩⟩
      · refine hput.positive hpos fun p' hp' => ?_
        rcases List.mem_append.mp hp' with hp' | hp'
        · exact hpos i hi p' hp'
        · rw [List.mem_singleton.mp hp']
          exact hp
      · rw [hiff, hunfold]
        change _ ↔ NoWrap A s.totRound (ring.count p).totBytes l
        rw [htot]
        exact and_iff_right hwrap
    · have hno : ¬NoWrap A s.totRound s.ring.totBytes s.inque := by
        rw [hiff, hunfold]
        exact fun hand => hwrap hand.1
      obtain ⟨hib, htot⟩ := Classical.not_imp.mp hwrap
      have hnonneg := hpos.nonneg
      rw [← hc.total] at hnonneg
      obtain ⟨hw, hr'⟩ := wrapped_of_place c.inRange (by omega) hp hib heq
      exact ⟨hr', c.round, hrest, .inr ⟨hw, hno⟩⟩
  · have hib : t.needs A p = block :=
      le_antisymm hfit (hw.full.trans (A.intervalBlock_mono (by omega)))
    obtain ⟨hw', hr'⟩ := wrapped_of_place c.inRange hw.pos hp hib heq
    exact ⟨hr', c.round, hrest, .inr ⟨hw', hno⟩⟩

theorem Counting.ends {t : Sim τ} (c : Counting A s l t)
    (hstop : NoWrap A s.totRound t.ring.totBytes l) :
    Consistent t.ring ↔ NoWrap A s.totRound s.ring.totBytes s.inque := by
  rcases c.counters with ⟨hc, -, hiff⟩ | ⟨hw, hno⟩
  · exact iff_of_true hc (hiff.mpr hstop)
  · exact iff_of_false (hw.not_consistent c.inRange) hno

theorem inRing_consistent_iff (hr : InRange s.ring) (hpos : Positive s.ring)
    (hinque : ∀ p ∈ s.inque, 0 < p.len) (hc : Consistent s.ring) (heq : inRing A s = .ok s') :
    Consistent s'.ring ↔ NoWrap A s.totRound s.ring.totBytes s.inque := by
  refine inRingLoop_rule (I := Counting A s)
    (J := fun t => Consistent t.ring ↔ NoWrap A s.totRound s.ring.totBytes s.inque)
    ?_ ?_ ?_ ?_ ?_ ⟨hr, rfl, hinque, .inl ⟨hc, hpos, Iff.rfl⟩⟩ heq
  · exact fun p l t c he => c.expired he
  · exact fun p l t ring c he hlong hfit heq => c.place he hlong hfit heq
  · exact fun p l t c he hlong => c.ends (eachPlaced_stop (c.round ▸ he) (.inl hlong))
  · exact fun p l t c he _ hfull => c.ends (eachPlaced_stop (c.round ▸ he) (.inr hfull))
  · exact fun t c => c.ends trivial

theorem Known.inRing (k : Known s) (heq : inRing A s = .ok s') : Known s' := by
  refine inRingLoop_rule
    (I := fun l t => InRange t.ring ∧ Positive t.ring ∧ ∀ p ∈ l, 0 < p.len) (J := Known)
    ?_ ?_ ?_ ?_ ?_ ⟨k.inRange, k.positive, k.lengths⟩ heq
  · rintro p l t ⟨hr, hpos, hl⟩ -
    exact ⟨hr, hpos, fun p' hp' => hl p' (List.mem_cons_of_mem p hp')⟩
  · rintro p l t ring ⟨hr, hpos, hl⟩ - - hfit heq
    have hrest := fun p' hp' => hl p' (List.mem_cons_of_mem p hp')
    have hp := hl p List.mem_cons_self
    rcases place_ok hr.now_lt hr.pre_lt hfit heq with ⟨-, hput⟩ | ⟨hlt, hput⟩
    · refine ⟨hput.inRange hr hr.pre_lt, hput.positive hpos fun p' hp' => ?_, hrest⟩
      rcases List.mem_append.mp hp' with hp' | hp'
      · exact hpos _ hr.pre_lt p' hp'
      · rw [List.mem_singleton.mp hp']
        exact hp
    · refine ⟨hput.inRange hr (shift_lt hr.now_lt (by omega)), hput.positive hpos fun p' hp' => ?_,
        hrest⟩
      rw [List.mem_singleton.mp hp']
      exact hp
  · rintro p l t ⟨hr, hpos, hl⟩ - -
    exact ⟨hr, hpos, fun p' hp' => hl p' (List.mem_cons_of_mem p hp')⟩
  · rintro p l t ⟨hr, hpos, hl⟩ - - -
    exact ⟨hr, hpos, hl⟩
  · rintro t ⟨hr, hpos, -⟩
    exact ⟨hr, hpos, by simp⟩

/-- The calls on the ring, and what happens between them: a packet of positive length comes to
`inque`, or a tick passes. -/
inductive Call (τ : Type)
  | push (p : { p : Packet τ // 0 < p.len })
  | round
  | inRing
  | deRing
  | statusUpdate

def call (A : RingNum τ) (s : Sim τ) : Call τ → Except Overflow (Unit × Sim τ)
  | .push p => .ok ((), { s with inque := s.inque ++ [p.1] })
  | .round => .ok ((), { s with totRound := s.totRound + 1 })
  | .inRing =>
    match inRing A s with
    | .error e => .error e
    | .ok s => .ok ((), s)
  | .deRing => .ok ((), s.deRing)
  | .statusUpdate => .ok ((), s.statusUpdate)

/-- The calls that keep the counters right: no jump of `in_ring` comes round to a ring with
packets, and `status_update` leaves an empty block. -/
def Sim.Safe (A : RingNum τ) (s : Sim τ) : Call τ → Prop
  | .inRing => NoWrap A s.totRound s.ring.totBytes s.inque
  | .statusUpdate => s.ring.nowQlen s.ring.nowPostion = 0
  | _ => True

instance (A : RingNum τ) (s : Sim τ) (c : Call τ) : Decidable (s.Safe A c) := by
  unfold Sim.Safe
  cases c <;> infer_instance

theorem call_inRing {o : Unit} (heq : call A s .inRing = .ok (o, s')) : inRing A s = .ok s' := by
  simp only [call] at heq
  split at heq
  · cases heq
  · rename_i t ht
    rw [ht, (Prod.mk.inj (Except.ok.inj heq)).2]

theorem Known.call (k : Known s) {c : Call τ} {o : Unit} (heq : call A s c = .ok (o, s')) :
    Known s' := by
  cases c with
  | push p =>
    obtain ⟨-, rfl⟩ := Prod.mk.inj (Except.ok.inj heq)
    refine ⟨k.inRange, k.positive, fun p' hp' => ?_⟩
    rcases List.mem_append.mp hp' with hp' | hp'
    · exact k.lengths p' hp'
    · rw [List.mem_singleton.mp hp']
      exact p.2
  | round =>
    obtain ⟨-, rfl⟩ := Prod.mk.inj (Except.ok.inj heq)
    exact ⟨k.inRange, k.positive, k.lengths⟩
  | inRing => exact k.inRing (call_inRing heq)
  | deRing =>
    obtain ⟨-, rfl⟩ := Prod.mk.inj (Except.ok.inj heq)
    exact ⟨k.inRange.deRing _, k.positive.clear (deRing_packets _ _), k.lengths⟩
  | statusUpdate =>
    obtain ⟨-, rfl⟩ := Prod.mk.inj (Except.ok.inj heq)
    exact ⟨k.inRange.statusUpdate, k.positive.clear (statusUpdate_packets _), k.lengths⟩

theorem Known.consistent_iff (k : Known s) (hc : Consistent s.ring) {c : Call τ} {o : Unit}
    (heq : RingSim.call A s c = .ok (o, s')) : Consistent s'.ring ↔ s.Safe A c := by
  cases c with
  | push p =>
    obtain ⟨-, rfl⟩ := Prod.mk.inj (Except.ok.inj heq)
    exact iff_of_true hc trivial
  | round =>
    obtain ⟨-, rfl⟩ := Prod.mk.inj (Except.ok.inj heq)
    exact iff_of_true hc trivial
  | inRing => exact inRing_consistent_iff k.inRange k.positive k.lengths hc (call_inRing heq)
  | deRing =>
    obtain ⟨-, rfl⟩ := Prod.mk.inj (Except.ok.inj heq)
    exact iff_of_true (hc.deRing k.inRange _) trivial
  | statusUpdate =>
    obtain ⟨-, rfl⟩ := Prod.mk.inj (Except.ok.inj heq)
    exact hc.statusUpdate_iff k.inRange k.positive

/-- The counters are right in all states of exactly those runs in which no jump comes round to
a ring with packets and `status_update` leaves empty blocks only. -/
theorem consistent_iff_safe (A : RingNum τ) (mem : ℕ → ℕ → Packet τ)
    {h : List (Call τ × Unit)} (run : Run (call A) (Sim.new mem []) h s) :
    (∀ h' s', h' <+: h → Run (call A) (Sim.new mem []) h' s' → Consistent s'.ring) ↔
      GuardedRun (call A) (Sim.Safe A) (Sim.new mem []) h s :=
  always_iff_guarded (I := fun s => Consistent s.ring) (J := Known) (consistent_new mem)
    (known_new mem []) (fun _ _ _ _ k heq => k.call heq)
    (fun _ _ _ _ k hc heq => k.consistent_iff hc heq) run

end Calls

/-- The arithmetic of the program, whose ring has a rate of 128 kilobytes for each second. -/
def ringSample : RingNum ℚ := .exact 128 (by norm_num)

def memSample : ℕ → ℕ → Packet ℚ := fun _ _ => ⟨0, 0⟩

def halfSample : { p : Packet ℚ // 0 < p.len } := ⟨⟨0, 65536⟩, by norm_num⟩

theorem consistent_iff_safe_sample :
    ∃ h s, s.ring.nowQlen 500 = 1 ∧ s.ring.nowPostion = 1 ∧
      ((∀ h' s', h' <+: h → Run (call ringSample) (Sim.new memSample []) h' s' →
        Consistent s'.ring) ↔
        GuardedRun (call ringSample) (Sim.Safe ringSample) (Sim.new memSample []) h s) := by
  obtain ⟨h, s, run, hs⟩ := exists_run_of_exec
    (fun s : Sim ℚ => (s.ring.nowQlen 500, s.ring.nowPostion)) (b := (1, 1))
    (show (exec (call ringSample) (Sim.new memSample [])
      [.push halfSample, .inRing, .deRing, .statusUpdate]).toOption.map _ = _ by decide +kernel)
  obtain ⟨hqlen, hnow⟩ := Prod.mk.inj hs
  exact ⟨h, s, hqlen, hnow, consistent_iff_safe ringSample memSample run⟩

/-- Two packets that fill the ring exactly: the jump of the second comes round, and the first
is left outside the pointers. -/
theorem full_ring_wraps :
    ∃ h s, Run (call ringSample) (Sim.new memSample []) h s ∧ ¬Consistent s.ring := by
  obtain ⟨h, s, run, hs⟩ := exists_run_of_exec
    (fun s : Sim ℚ => (s.ring.nowQlen 500, s.ring.nowPostion, s.ring.prePointer)) (b := (1, 0, 0))
    (show (exec (call ringSample) (Sim.new memSample [])
      [.push halfSample, .push halfSample, .inRing]).toOption.map _ = _ by decide +kernel)
  obtain ⟨hqlen, hpointers⟩ := Prod.mk.inj hs
  obtain ⟨hnow, hpre⟩ := Prod.mk.inj hpointers
  refine ⟨h, s, run, fun hc => ?_⟩
  have hne : s.ring.packets 500 ≠ [] := by
    rw [ne_eq, packets_eq_nil, hqlen]
    exact one_ne_zero
  have hinside := hc.inside 500 (by unfold block; norm_num) hne
  rw [span_eq, hnow, hpre, gap_self] at hinside
  exact absurd hinside (by decide)

end MeasurementLimiter.RingSim
