import MeasurementLimiter.Argmax
import MeasurementLimiter.RateRatio

namespace MeasurementLimiter.MeasureRate

open Argmax

variable {q q' : List ℚ} {L : ℚ}

/-- A pair that the loops do not skip: its rates are at least the mean distance apart. -/
def Admissible (q : List ℚ) (ij : ℕ × ℕ) : Prop :=
  ij.1 < ij.2 ∧ ij.2 < q.length ∧
    (sample q (q.length - 1) - sample q 0) / (q.length - 1 : ℕ) ≤ sample q ij.2 - sample q ij.1

def density (q : List ℚ) (ij : ℕ × ℕ) : ℚ :=
  (((ij.2 - ij.1 + 1) * (ij.2 - ij.1 + 1) : ℕ) : ℚ) / (sample q ij.2 - sample q ij.1)

def Earlier (ij kl : ℕ × ℕ) : Prop := ij.1 < kl.1 ∨ (ij.1 = kl.1 ∧ ij.2 < kl.2)

/-- The first in this order of the pairs with the largest density. -/
structure Densest (q : List ℚ) (lr : ℕ × ℕ) : Prop where
  admissible : Admissible q lr
  densest : ∀ ij, Admissible q ij → density q ij ≤ density q lr
  first : ∀ ij, Admissible q ij → density q ij = density q lr → ij = lr ∨ Earlier lr ij

def meanOf (q : List ℚ) (lr : ℕ × ℕ) : ℚ :=
  (∑ k ∈ Finset.Icc lr.1 lr.2, sample q k) / (lr.2 - lr.1 + 1)

theorem pairwise_pairsOf (sz : ℕ) : (pairsOf sz).Pairwise Earlier := by
  unfold pairsOf
  rw [List.pairwise_flatMap]
  constructor
  · intro i _
    rw [List.pairwise_map]
    exact (List.pairwise_lt_range' 1).imp fun hlt => .inr ⟨rfl, hlt⟩
  · refine List.pairwise_lt_range.imp fun {i i'} hlt => ?_
    intro ij hij kl hkl
    obtain ⟨j, -, rfl⟩ := List.mem_map.mp hij
    obtain ⟨j', -, rfl⟩ := List.mem_map.mp hkl
    exact .inl hlt

theorem earlier_asymm (ij kl : ℕ × ℕ) (h : Earlier ij kl) : ¬Earlier kl ij := by
  unfold Earlier at *
  omega

def admitted (q : List ℚ) (L : ℚ) : List (ℕ × ℕ) :=
  (pairsOf q.length).filter fun ij => L ≤ sample q ij.2 - sample q ij.1

theorem threshold_some (h : threshold q = some L) : q.length ≠ 1 ∧
    (sample q (q.length - 1) - sample q 0) / (q.length - 1 : ℕ) = L := by
  rw [threshold] at h
  split_ifs at h with hone
  exact ⟨hone, Option.some.inj h⟩

theorem mem_admitted (h : threshold q = some L) {ij : ℕ × ℕ} :
    ij ∈ admitted q L ↔ Admissible q ij := by
  rw [admitted, List.mem_filter, mem_pairsOf, decide_eq_true_eq, Admissible, (threshold_some h).2,
    and_assoc]

theorem firstMax_iff (h : threshold q = some L) {lr : ℕ × ℕ} :
    FirstMax Earlier (density q) (admitted q L) lr ↔ Densest q lr := by
  constructor
  · intro m
    exact ⟨(mem_admitted h).mp m.mem, fun ij hij => m.max ij ((mem_admitted h).mpr hij),
      fun ij hij => m.first ij ((mem_admitted h).mpr hij)⟩
  · intro d
    exact ⟨(mem_admitted h).mpr d.admissible, fun ij hij => d.densest ij ((mem_admitted h).mp hij),
      fun ij hij => d.first ij ((mem_admitted h).mp hij)⟩

def Stretch.of (best : ℚ × ℕ × ℕ) : Stretch := ⟨best.1, best.2.1, best.2.2⟩

theorem foldlM_ratioStep (hL : threshold q = some L) (hpos : 0 < L) (l : List (ℕ × ℕ))
    (best : ℚ × ℕ × ℕ) :
    l.foldlM (ratioStep q) (Stretch.of best) = .ok (Stretch.of
      ((l.filter fun ij => L ≤ sample q ij.2 - sample q ij.1).foldl (keep (density q)) best)) := by
  induction l generalizing best with
  | nil => rfl
  | cons ij l ih =>
    by_cases hle : L ≤ sample q ij.2 - sample q ij.1
    · have hskip : ¬((threshold q).any fun L => sample q ij.2 - sample q ij.1 < L) = true := by
        rw [hL, Option.any_some, decide_eq_true_eq]
        exact not_lt.mpr hle
      have hone : ratioStep q (Stretch.of best) ij = .ok (Stretch.of (keep (density q) best ij)) := by
        rw [ratioStep, if_neg hskip, quotient_ok (hpos.trans_le hle).ne', keep, apply_ite Stretch.of]
        rfl
      rw [List.foldlM_cons, hone, List.filter_cons, if_pos (decide_eq_true hle), List.foldl_cons]
      exact ih _
    · have hskip : ((threshold q).any fun L => sample q ij.2 - sample q ij.1 < L) = true := by
        rw [hL, Option.any_some, decide_eq_true_eq]
        exact not_le.mp hle
      have hone : ratioStep q (Stretch.of best) ij = .ok (Stretch.of best) := if_pos hskip
      rw [List.foldlM_cons, hone, List.filter_cons, if_neg (by rwa [decide_eq_true_eq])]
      exact ih _

theorem density_pos {ij : ℕ × ℕ} (hpos : 0 < L)
    (h : ij ∈ admitted q L) : 0 < density q ij := by
  have hle := of_decide_eq_true (List.mem_filter.mp h).2
  have hdiff : 0 < sample q ij.2 - sample q ij.1 := hpos.trans_le hle
  unfold density
  positivity

theorem whole_admitted (hL : threshold q = some L) (h : 2 ≤ q.length) :
    (0, q.length - 1) ∈ admitted q L := by
  rw [mem_admitted hL]
  refine ⟨by dsimp only; omega, by dsimp only; omega, div_le_self ?_ ?_⟩
  · have := sample_mono q (Nat.zero_le (q.length - 1)) (by omega)
    linarith
  · have : 1 ≤ q.length - 1 := by omega
    exact_mod_cast this

theorem loops_densest (hL : threshold q = some L) (hpos : 0 < L) (h : 2 ≤ q.length) :
    ∃ lr, Densest q lr ∧ (pairsOf q.length).foldlM (ratioStep q) ⟨-1, 0, q.length - 1⟩ =
      .ok ⟨density q lr, lr.1, lr.2⟩ := by
  have hloop := foldlM_ratioStep hL hpos (pairsOf q.length) (-1, 0, q.length - 1)
  have hsorted : (admitted q L).Pairwise Earlier := (pairwise_pairsOf q.length).filter _
  rcases foldl_keep (f := density q) hsorted (-1, 0, q.length - 1) with ⟨hle, -⟩ | ⟨lr, m, heq⟩
  · have hwhole := whole_admitted hL h
    have hpositive := density_pos hpos hwhole
    have := hle _ hwhole
    linarith
  · refine ⟨lr, (firstMax_iff hL).mp m, hloop.trans ?_⟩
    rw [← admitted, heq]
    rfl

theorem getRatio_mean (h : 2 ≤ q.length) (hne : threshold q ≠ some 0) :
    ∃ lr, Densest q lr ∧ getRatio q = .ok (meanOf q lr) := by
  obtain ⟨L, hL, hpos⟩ := threshold_pos h hne
  obtain ⟨lr, d, hloop⟩ := loops_densest hL hpos h
  refine ⟨lr, d, ?_⟩
  have hlen : (lr.2 : ℚ) - lr.1 + 1 ≠ 0 := by
    have hlt : (lr.1 : ℚ) < lr.2 := by exact_mod_cast d.admissible.1
    linarith
  rw [getRatio, if_neg (by omega), if_neg hne, hloop]
  dsimp only
  rw [quotient_ok hlen, meanOf, Nat.Icc_eq_range']
  rfl

theorem sample_mem {i : ℕ} (h : i < q.length) : sample q i ∈ q := by
  have hlen : i < (q.insertionSort (· ≤ ·)).length := by rwa [List.length_insertionSort]
  rw [sample, List.getD_eq_getElem _ _ hlen]
  exact (List.mem_insertionSort _).mp (List.getElem_mem hlen)

theorem exists_sample {x : ℚ} (h : x ∈ q) : ∃ i < q.length, sample q i = x := by
  obtain ⟨i, hi, heq⟩ := List.getElem_of_mem ((List.mem_insertionSort (· ≤ ·)).mpr h)
  refine ⟨i, by rwa [List.length_insertionSort] at hi, ?_⟩
  rw [sample, List.getD_eq_getElem _ _ hi, heq]

theorem common_of_threshold (h : threshold q = some 0) : ∃ x, ∀ y ∈ q, y = x := by
  refine ⟨sample q 0, fun y hy => ?_⟩
  obtain ⟨i, hi, rfl⟩ := exists_sample hy
  obtain ⟨hone, hgap⟩ := threshold_some h
  have hpos : ((q.length - 1 : ℕ) : ℚ) ≠ 0 := by
    have : q.length - 1 ≠ 0 := by omega
    exact_mod_cast this
  have hsame : sample q (q.length - 1) - sample q 0 = 0 := (div_eq_zero_iff.mp hgap).resolve_right hpos
  have hlow := sample_mono q (Nat.zero_le i) hi
  have hhigh := sample_mono q (show i ≤ q.length - 1 by omega) (by omega)
  linarith

theorem getRatio_common {x : ℚ} (hne : q ≠ []) (h : ∀ y ∈ q, y = x) : getRatio q = .ok x := by
  have hlen : 0 < q.length := List.length_pos_iff.mpr hne
  have hsample : ∀ i < q.length, sample q i = x := fun i hi => h _ (sample_mem hi)
  by_cases hone : q.length = 1
  · have hL : threshold q ≠ some 0 := by
      rw [threshold, if_pos hone]
      exact (Option.some_ne_none _).symm
    rw [getRatio, if_neg hlen.ne', if_neg hL, hone]
    change quotient ([0].map (sample q)).sum (((0 : ℕ) : ℚ) - (0 : ℕ) + 1) = _
    rw [quotient_ok (by norm_num), List.map_singleton, List.sum_singleton, hsample 0 hlen]
    norm_num
  · have hL : threshold q = some 0 := by
      rw [threshold, if_neg hone, hsample _ (by omega), hsample 0 hlen, sub_self, zero_div]
    rw [getRatio, if_neg hlen.ne', if_pos hL, hsample 0 hlen]

theorem two_le_length (hne : q ≠ []) (hdiffer : ¬∃ x, ∀ y ∈ q, y = x) : 2 ≤ q.length := by
  by_contra hshort
  have hlen : 0 < q.length := List.length_pos_iff.mpr hne
  obtain ⟨x, rfl⟩ := List.length_eq_one_iff.mp (show q.length = 1 by omega)
  exact hdiffer ⟨x, fun y hy => List.mem_singleton.mp hy⟩

/-- `get_ratio` returns the common rate, if the rates are all equal or there is only one, and else
the mean of the first stretch of the largest density among those whose ends are at least the
mean distance apart. -/
theorem getRatio_densest (q : List ℚ) (hne : q ≠ []) :
    (∀ x, (∀ y ∈ q, y = x) → getRatio q = .ok x) ∧
      ((¬∃ x, ∀ y ∈ q, y = x) → ∃ lr, Densest q lr ∧ getRatio q = .ok (meanOf q lr)) := by
  refine ⟨fun x => getRatio_common hne, fun hdiffer => ?_⟩
  exact getRatio_mean (two_le_length hne hdiffer) fun hL => hdiffer (common_of_threshold hL)

theorem getRatio_densest_sample :
    ∃ lr, Densest [7, 1, 3, 2] lr ∧ getRatio [7, 1, 3, 2] = .ok (meanOf [7, 1, 3, 2] lr) := by
  refine (getRatio_densest [7, 1, 3, 2] (by decide)).2 ?_
  rintro ⟨x, hx⟩
  have hseven := hx 7 (by decide)
  have hone := hx 1 (by decide)
  linarith

example : getRatio [7, 1, 3, 2] = .ok (meanOf [7, 1, 3, 2] (0, 2)) := by decide +kernel

theorem sample_perm (h : q'.Perm q) : sample q' = sample q := by
  have hsame : q'.insertionSort (· ≤ ·) = q.insertionSort (· ≤ ·) := by
    refine List.Perm.eq_of_sortedLE List.sortedLE_insertionSort List.sortedLE_insertionSort ?_
    exact (List.perm_insertionSort _ q').trans (h.trans (List.perm_insertionSort _ q).symm)
  funext i
  rw [sample, sample, hsame]

theorem getRatio_congr (hlen : q'.length = q.length) (hsample : sample q' = sample q) :
    getRatio q' = getRatio q := by
  have hL : threshold q' = threshold q := by rw [threshold, threshold, hlen, hsample]
  have hstep : ratioStep q' = ratioStep q := by
    funext best ij
    rw [ratioStep, ratioStep, hL, hsample]
  rw [getRatio, getRatio, hlen, hL, hsample, hstep]

section Units

variable {c : ℚ} (hc : 0 < c) (d : ℚ)

def rescale (c d : ℚ) (q : List ℚ) : List ℚ := q.map fun x => c * x + d

theorem length_rescale (c d : ℚ) (q : List ℚ) : (rescale c d q).length = q.length := List.length_map _

include hc

theorem sample_rescale {i : ℕ} (h : i < q.length) :
    sample (rescale c d q) i = c * sample q i + d := by
  have hsorted : (rescale c d q).insertionSort (· ≤ ·) =
      (q.insertionSort (· ≤ ·)).map fun x => c * x + d := by
    refine (List.map_insertionSort _ _ _ q fun a _ b _ => ?_).symm
    rw [add_le_add_iff_right, mul_le_mul_iff_right₀ hc]
  have hlen : i < (q.insertionSort (· ≤ ·)).length := by rwa [List.length_insertionSort]
  rw [sample, hsorted, List.getD_eq_getElem _ _ (by rwa [List.length_map]), List.getElem_map,
    sample, List.getD_eq_getElem _ _ hlen]

theorem gap_rescale {i j : ℕ} (hi : i < q.length) (hj : j < q.length) :
    sample (rescale c d q) j - sample (rescale c d q) i = c * (sample q j - sample q i) := by
  rw [sample_rescale hc d hi, sample_rescale hc d hj]
  ring

theorem threshold_rescale (hne : q ≠ []) :
    threshold (rescale c d q) = (threshold q).map fun L => c * L := by
  have hlen : 0 < q.length := List.length_pos_iff.mpr hne
  rw [threshold, threshold, length_rescale]
  split_ifs
  · rfl
  · rw [gap_rescale hc d hlen (by omega), mul_div_assoc, Option.map_some]

theorem admitted_rescale (L : ℚ) : admitted (rescale c d q) (c * L) = admitted q L := by
  rw [admitted, admitted, length_rescale]
  refine List.filter_congr fun ij hij => ?_
  rw [mem_pairsOf] at hij
  rw [gap_rescale hc d (by omega) hij.2]
  exact decide_eq_decide.mpr (mul_le_mul_iff_right₀ hc)

theorem density_rescale {ij : ℕ × ℕ} (h : ij.1 < ij.2 ∧ ij.2 < q.length) :
    density (rescale c d q) ij = density q ij / c := by
  rw [density, density, gap_rescale hc d (by omega) h.2, mul_comm c, div_mul_eq_div_div]

theorem firstMax_rescale {lr : ℕ × ℕ} (m : FirstMax Earlier (density q) (admitted q L) lr) :
    FirstMax Earlier (density (rescale c d q)) (admitted (rescale c d q) (c * L)) lr := by
  rw [admitted_rescale hc]
  refine m.congr fun ij hij kl hkl => ?_
  have hmem : ∀ {ij}, ij ∈ admitted q L → ij.1 < ij.2 ∧ ij.2 < q.length := fun h =>
    mem_pairsOf.mp (List.mem_filter.mp h).1
  rw [density_rescale hc d (hmem hij), density_rescale hc d (hmem hkl), div_le_div_iff_of_pos_right hc]

theorem meanOf_rescale {lr : ℕ × ℕ} (h : lr.1 < lr.2 ∧ lr.2 < q.length) :
    meanOf (rescale c d q) lr = c * meanOf q lr + d := by
  have hsum : ∑ k ∈ Finset.Icc lr.1 lr.2, sample (rescale c d q) k =
      c * (∑ k ∈ Finset.Icc lr.1 lr.2, sample q k) + (lr.2 - lr.1 + 1) * d := by
    calc ∑ k ∈ Finset.Icc lr.1 lr.2, sample (rescale c d q) k
        = ∑ k ∈ Finset.Icc lr.1 lr.2, (c * sample q k + d) := by
          refine Finset.sum_congr rfl fun k hk => ?_
          exact sample_rescale hc d (by have := (Finset.mem_Icc.mp hk).2; omega)
      _ = c * (∑ k ∈ Finset.Icc lr.1 lr.2, sample q k) + (lr.2 + 1 - lr.1 : ℕ) * d := by
          rw [Finset.sum_add_distrib, ← Finset.mul_sum, Finset.sum_const, Nat.card_Icc, nsmul_eq_mul]
      _ = _ := by
          rw [Nat.cast_sub (by omega), Nat.cast_succ]
          ring
  have hpos : (lr.2 : ℚ) - lr.1 + 1 ≠ 0 := by
    have hlt : (lr.1 : ℚ) < lr.2 := by exact_mod_cast h.1
    linarith
  rw [meanOf, meanOf, hsum]
  field_simp

theorem getRatio_rescale (h : 2 ≤ q.length) (hne : threshold q ≠ some 0) :
    ∃ r, getRatio q = .ok r ∧ getRatio (rescale c d q) = .ok (c * r + d) := by
  obtain ⟨L, hL, hpos⟩ := threshold_pos h hne
  have hL' : threshold (rescale c d q) = some (c * L) := by
    rw [threshold_rescale hc d (by rintro rfl; exact absurd h (by decide)), hL]
    rfl
  have hne' : threshold (rescale c d q) ≠ some 0 := by
    rw [hL']
    exact fun h => (mul_pos hc hpos).ne' (Option.some.inj h)
  obtain ⟨lr, hdensest, hratio⟩ := getRatio_mean h hne
  obtain ⟨kl, hdensest', hratio'⟩ := getRatio_mean (by rwa [length_rescale]) hne'
  have m := firstMax_rescale hc d ((firstMax_iff hL).mpr hdensest)
  obtain rfl := ((firstMax_iff hL').mpr hdensest').unique earlier_asymm m
  refine ⟨_, hratio, ?_⟩
  rw [hratio', meanOf_rescale hc d ⟨hdensest.admissible.1, hdensest.admissible.2.1⟩]

end Units

/-- The smoothed rate does not depend on the order of the queue, and it changes its unit and its
zero with the rates. -/
theorem getRatio_invariant (q : List ℚ) (hne : q ≠ []) :
    (∀ q', q'.Perm q → getRatio q' = getRatio q) ∧
      ∀ c d, 0 < c → ∃ r, getRatio q = .ok r ∧
        getRatio (q.map fun x => c * x + d) = .ok (c * r + d) := by
  refine ⟨fun q' hperm => getRatio_congr hperm.length_eq (sample_perm hperm), fun c d hc => ?_⟩
  by_cases hcommon : ∃ x, ∀ y ∈ q, y = x
  · obtain ⟨x, hx⟩ := hcommon
    refine ⟨x, getRatio_common hne hx, getRatio_common (by simpa using hne) fun y hy => ?_⟩
    obtain ⟨z, hz, rfl⟩ := List.mem_map.mp hy
    rw [hx z hz]
  · exact getRatio_rescale hc d (two_le_length hne hcommon) fun hL =>
      hcommon (common_of_threshold hL)

theorem getRatio_invariant_sample :
    getRatio [1, 2, 3, 7] = getRatio [7, 1, 3, 2] ∧
      ∃ r, getRatio [7, 1, 3, 2] = .ok r ∧
        getRatio ([7, 1, 3, 2].map fun x => 1000 * x + 0) = .ok (1000 * r + 0) := by
  have h := getRatio_invariant [7, 1, 3, 2] (by decide)
  exact ⟨h.1 [1, 2, 3, 7] (by decide), h.2 1000 0 (by norm_num)⟩

end MeasurementLimiter.MeasureRate
