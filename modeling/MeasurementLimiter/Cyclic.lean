import Mathlib

namespace MeasurementLimiter.Cyclic

def shift (n i j : ℕ) : ℕ := if i + j < n then i + j else i + j - n

def gap (n i k : ℕ) : ℕ := if i ≤ k then k - i else k + n - i

/-- The number of links from `i` to the next visit of `k`, a whole lap when they
are the same place. -/
def lap (n i k : ℕ) : ℕ := if i < k then k - i else k + n - i

variable {n i j k : ℕ}

theorem shift_lt (hi : i < n) (hj : j ≤ n) : shift n i j < n := by
  unfold shift
  split_ifs <;> omega

@[simp] theorem shift_zero (hi : i < n) : shift n i 0 = i := by
  simp [shift, hi]

theorem shift_lap : shift n i n = i := by
  unfold shift
  split_ifs <;> omega

theorem shift_shift (hi : i < n) (h : j + k ≤ n) :
    shift n (shift n i j) k = shift n i (j + k) := by
  unfold shift
  split_ifs <;> omega

theorem shift_shift_wrap (hi : i < n) (hj : j ≤ n) (hk : k ≤ n) (h : n ≤ j + k) :
    shift n (shift n i j) k = shift n i (j + k - n) := by
  unfold shift
  split_ifs <;> omega

theorem shift_inj (hj : j < n) (hk : k < n) :
    shift n i j = shift n i k ↔ j = k := by
  unfold shift
  split_ifs <;> omega

theorem gap_lt (hk : k < n) : gap n i k < n := by
  unfold gap
  split_ifs <;> omega

@[simp] theorem gap_self : gap n i i = 0 := by
  simp [gap]

theorem shift_gap (hi : i < n) (hk : k < n) : shift n i (gap n i k) = k := by
  unfold shift gap
  split_ifs <;> omega

theorem gap_shift (hi : i < n) (hj : j < n) : gap n i (shift n i j) = j := by
  unfold shift gap
  split_ifs <;> omega

theorem gap_eq_zero (hi : i < n) : gap n i k = 0 ↔ i = k := by
  unfold gap
  split_ifs <;> omega

theorem gap_shift_left (hi : i < n) (hk : k < n) (h : j ≤ gap n i k) :
    gap n (shift n i j) k = gap n i k - j := by
  unfold shift gap at *
  split_ifs at * <;> omega

theorem gap_shift_right (hi : i < n) (hk : k < n) (h : gap n i k + j < n) :
    gap n i (shift n k j) = gap n i k + j := by
  unfold shift gap at *
  split_ifs at * <;> omega

theorem lap_add_gap (hi : i < n) (hk : k < n) : lap n i k + gap n k i = n := by
  unfold lap gap
  split_ifs <;> omega

theorem lap_pos (hi : i < n) : 0 < lap n i k := by
  unfold lap
  split_ifs <;> omega

theorem lap_shift_one (hi : i < n) (hk : k < n) (h : shift n i 1 ≠ k) :
    lap n (shift n i 1) k + 1 = lap n i k := by
  unfold shift lap at *
  split_ifs at * <;> omega

theorem lap_eq_one (hi : i < n) (hk : k < n) : lap n i k = 1 ↔ shift n i 1 = k := by
  unfold shift lap
  split_ifs <;> omega

theorem exists_shift (hi : i < n) (hk : k < n) : ∃ j < n, shift n i j = k :=
  ⟨gap n i k, gap_lt hk, shift_gap hi hk⟩

theorem sum_shift {A : Type*} [AddCommMonoid A] (hi : i < n) (f : ℕ → A) :
    ∑ j ∈ Finset.range n, f (shift n i j) = ∑ j ∈ Finset.range n, f j := by
  refine Finset.sum_nbij' (shift n i) (gap n i) ?_ ?_ ?_ ?_ fun _ _ => rfl
  · intro j hj
    exact Finset.mem_range.mpr (shift_lt hi (Finset.mem_range.mp hj).le)
  · intro j hj
    exact Finset.mem_range.mpr (gap_lt (Finset.mem_range.mp hj))
  · intro j hj
    exact gap_shift hi (Finset.mem_range.mp hj)
  · intro j hj
    exact shift_gap hi (Finset.mem_range.mp hj)

theorem flatMap_range_snoc {α : Type*} {f f' : ℕ → List α} {a : α} {n d : ℕ}
    (hd : d < n)
    (hf : ∀ j < n, f' j = if j = d then f d ++ [a] else f j)
    (hbehind : ∀ j, d < j → j < n → f j = []) :
    (List.range n).flatMap f' = (List.range n).flatMap f ++ [a] := by
  obtain ⟨m, rfl⟩ : ∃ m, n = d + (1 + m) := ⟨n - d - 1, by omega⟩
  have hfront : (List.range d).flatMap f' = (List.range d).flatMap f := by
    refine List.flatMap_congr fun j hj => ?_
    have := List.mem_range.mp hj
    rw [hf j (by omega), if_neg (by omega)]
  have hrest : ∀ g : ℕ → List α, (∀ j, d < j → j < d + (1 + m) → g j = []) →
      (List.range m).flatMap (fun j => g (d + (1 + j))) = [] := fun g hg => by
    refine List.flatMap_eq_nil_iff.mpr fun j hj => ?_
    have := List.mem_range.mp hj
    exact hg _ (by omega) (by omega)
  have hf' : ∀ j, d < j → j < d + (1 + m) → f' j = [] := fun j hdj hj => by
    rw [hf j hj, if_neg (by omega), hbehind j hdj hj]
  simp only [List.range_add, List.flatMap_append, List.flatMap_map, hfront, hrest f hbehind,
    hrest f' hf', List.range_one, List.flatMap_singleton, Nat.add_zero, hf d hd, if_true,
    List.append_nil, List.append_assoc]

end MeasurementLimiter.Cyclic
