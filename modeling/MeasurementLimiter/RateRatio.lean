import MeasurementLimiter.Frames

namespace MeasurementLimiter.MeasureRate

open Runs
open FiveTuple (TupleFault)

/-- `QUEUE_SIZE`, the number of rates that are kept. -/
def queueSize : ℕ := 4

/-- Why a call cannot go on: it reads past an array or an empty vector, a quotient of
`get_ratio` is no number, an integer leaves the range of its type, or a buffer is overrun. -/
inductive RateFault
  | index
  | quotient
  | overflow
  | buffer (e : TupleFault)
  deriving DecidableEq

/-- The integers of a program: those of an `int`, or all of them. -/
inductive IntRange
  | int32
  | exact

def IntRange.Holds : IntRange → ℤ → Prop
  | .int32, x => -2 ^ 31 ≤ x ∧ x < 2 ^ 31
  | .exact, _ => True

instance (I : IntRange) (x : ℤ) : Decidable (I.Holds x) :=
  match I with
  | .int32 => inferInstanceAs (Decidable (_ ∧ _))
  | .exact => inferInstanceAs (Decidable True)

/-- The result of an operation on integers. -/
def IntRange.keep (I : IntRange) (x : ℤ) : Except RateFault ℤ :=
  if I.Holds x then .ok x else .error .overflow

def quotient (x y : ℚ) : Except RateFault ℚ := if y = 0 then .error .quotient else .ok (x / y)

/-- `F`, `l` and `r`, the density of the best stretch so far, and its ends. -/
structure Stretch where
  f : ℚ
  l : ℕ
  r : ℕ

/-- The pairs of places in the order of the two loops. -/
def pairsOf (sz : ℕ) : List (ℕ × ℕ) :=
  (List.range sz).flatMap fun i => (List.range' (i + 1) (sz - (i + 1))).map fun j => (i, j)

def sample (q : List ℚ) (i : ℕ) : ℚ := (q.insertionSort (· ≤ ·)).getD i 0

/-- `L`.  One sample alone has the quotient `0.0/0`, which is no number. -/
def threshold (q : List ℚ) : Option ℚ :=
  if q.length = 1 then none
  else some ((sample q (q.length - 1) - sample q 0) / (q.length - 1 : ℕ))

/-- The body of the two loops; where `L` is no number, no comparison with it holds. -/
def ratioStep (q : List ℚ) (best : Stretch) (ij : ℕ × ℕ) : Except RateFault Stretch :=
  if (threshold q).any fun L => sample q ij.2 - sample q ij.1 < L then .ok best
  else
    match quotient (((ij.2 - ij.1 + 1) * (ij.2 - ij.1 + 1) : ℕ) : ℚ)
        (sample q ij.2 - sample q ij.1) with
    | .error e => .error e
    | .ok f => .ok (if best.f < f then ⟨f, ij.1, ij.2⟩ else best)

def getRatio (q : List ℚ) : Except RateFault ℚ :=
  if q.length = 0 then .error .index
  else if threshold q = some 0 then .ok (sample q 0)
  else
    match (pairsOf q.length).foldlM (ratioStep q) ⟨-1, 0, q.length - 1⟩ with
    | .error e => .error e
    | .ok best =>
      quotient ((List.range' best.l (best.r + 1 - best.l)).map (sample q)).sum
        (best.r - best.l + 1)

theorem IntRange.keep_eq_ok {I : IntRange} {x y : ℤ} : I.keep x = .ok y ↔ I.Holds x ∧ x = y := by
  unfold IntRange.keep
  split_ifs with h <;> simp [h]

theorem IntRange.keep_of_holds {I : IntRange} {x : ℤ} (h : I.Holds x) : I.keep x = .ok x := if_pos h

theorem IntRange.Holds.mono {I : IntRange} {x y : ℤ} (h : I.Holds y) (hx : 0 ≤ x) (hxy : x ≤ y) :
    I.Holds x := by
  cases I with
  | exact => trivial
  | int32 =>
    obtain ⟨-, hlt⟩ := h
    exact ⟨by omega, by omega⟩

theorem quotient_ok {x y : ℚ} (h : y ≠ 0) : quotient x y = .ok (x / y) := if_neg h

theorem mem_pairsOf {sz : ℕ} {ij : ℕ × ℕ} : ij ∈ pairsOf sz ↔ ij.1 < ij.2 ∧ ij.2 < sz := by
  obtain ⟨i, j⟩ := ij
  simp only [pairsOf, List.mem_flatMap, List.mem_range, List.mem_map, List.mem_range'_1,
    Prod.mk.injEq]
  constructor
  · rintro ⟨i, hi, j, hj, rfl, rfl⟩
    omega
  · rintro ⟨hij, hj⟩
    exact ⟨i, by omega, j, by omega, rfl, rfl⟩

theorem sample_mono (q : List ℚ) {i j : ℕ} (hij : i ≤ j) (hj : j < q.length) :
    sample q i ≤ sample q j := by
  have hlen : (q.insertionSort (· ≤ ·)).length = q.length := List.length_insertionSort _ q
  unfold sample
  rw [List.getD_eq_getElem _ _ (by omega), List.getD_eq_getElem _ _ (by omega)]
  exact List.sortedLE_insertionSort.getElem_le_getElem_of_le hij

theorem threshold_pos {q : List ℚ} (h : 2 ≤ q.length) (hne : threshold q ≠ some 0) :
    ∃ L, threshold q = some L ∧ 0 < L := by
  have hone : q.length ≠ 1 := by omega
  rw [threshold, if_neg hone] at hne ⊢
  refine ⟨_, rfl, lt_of_le_of_ne ?_ fun h => hne (congrArg some h.symm)⟩
  have := sample_mono q (Nat.zero_le (q.length - 1)) (by omega)
  exact div_nonneg (by linarith) (Nat.cast_nonneg _)

theorem ratioStep_ok {q : List ℚ} {L : ℚ} (hL : threshold q = some L) (hpos : 0 < L)
    (best : Stretch) (ij : ℕ × ℕ) :
    ∃ best', ratioStep q best ij = .ok best' ∧
      (best' = best ∨ best'.l = ij.1 ∧ best'.r = ij.2) := by
  unfold ratioStep
  rw [hL, Option.any_some]
  split_ifs with hlt
  · exact ⟨best, rfl, .inl rfl⟩
  · have hdiff : sample q ij.2 - sample q ij.1 ≠ 0 := by
      intro h
      rw [h, decide_eq_true_eq] at hlt
      exact hlt hpos
    rw [quotient_ok hdiff]
    refine ⟨_, rfl, ?_⟩
    split_ifs
    · exact .inr ⟨rfl, rfl⟩
    · exact .inl rfl

theorem getRatio_ok {q : List ℚ} (h : q ≠ []) : ∃ ratio, getRatio q = .ok ratio := by
  have hlen : 0 < q.length := List.length_pos_iff.mpr h
  unfold getRatio
  rw [if_neg hlen.ne']
  split_ifs with hL
  · exact ⟨_, rfl⟩
  -- every stretch found so far is in order, so that its length is positive
  · have hloop : ∃ best, (pairsOf q.length).foldlM (ratioStep q) ⟨-1, 0, q.length - 1⟩ =
        .ok best ∧ best.l ≤ best.r := by
      refine foldlM_ok (I := fun best : Stretch => best.l ≤ best.r) (fun best ij hij hle => ?_)
        (Nat.zero_le _)
      rw [mem_pairsOf] at hij
      obtain ⟨L, hsome, hpos⟩ := threshold_pos (by omega) hL
      obtain ⟨best', heq, rfl | ⟨hl, hr⟩⟩ := ratioStep_ok hsome hpos best ij
      · exact ⟨best', heq, hle⟩
      · exact ⟨best', heq, by omega⟩
    obtain ⟨best, heq, hle⟩ := hloop
    have hle' : (best.l : ℚ) ≤ best.r := by exact_mod_cast hle
    rw [heq]
    exact ⟨_, quotient_ok (by linarith)⟩

example : getRatio [4, 1, 2, 3] = .ok (5 / 2) := by decide +kernel

example : getRatio [7] = .ok 7 := by decide +kernel

end MeasurementLimiter.MeasureRate
