import Mathlib

namespace MeasurementLimiter.TokenBucket

variable {α : Type*} [CommRing α] [LinearOrder α]

structure Bucket (α : Type*) where
  tokens : α
  stamp : α

def Bucket.level (B : α) (b : Bucket α) (now : α) : α := min B (b.tokens + min (now - b.stamp) B)

def Bucket.take (B : α) (b : Bucket α) (now c : α) : Bucket α := ⟨b.level B now - c, now⟩

structure Bucket.Valid (B : α) (b : Bucket α) : Prop where
  nonneg : 0 ≤ b.tokens
  le_depth : b.tokens ≤ B

variable {B now c : α} {b : Bucket α}

theorem Bucket.level_le_depth : b.level B now ≤ B := min_le_left _ _

/-- `Spends B b log b'`: a bucket goes from `b` to `b'` by withdrawals at
nondecreasing times, and `log` has for each of them its time and a part of it. -/
inductive Spends (B : α) (b : Bucket α) : List (α × α) → Bucket α → Prop
  | nil : Spends B b [] b
  | snoc {log b₁ now c c'} : Spends B b log b₁ → b₁.stamp ≤ now → 0 ≤ c' → c' ≤ c →
      c ≤ b₁.level B now → Spends B b (log ++ [(now, c')]) (b₁.take B now c)

def spent (s t : α) (log : List (α × α)) : α :=
  ((log.filter fun e => s ≤ e.1 ∧ e.1 ≤ t).map Prod.snd).sum

@[simp] theorem spent_nil (s t : α) : spent s t [] = 0 := by simp [spent]

theorem spent_append (s t : α) (l l' : List (α × α)) :
    spent s t (l ++ l') = spent s t l + spent s t l' := by
  simp [spent, List.filter_append]

theorem spent_singleton (s t now c : α) :
    spent s t [(now, c)] = if s ≤ now ∧ now ≤ t then c else 0 := by
  unfold spent
  split_ifs with h <;> simp [h]

variable {b' : Bucket α} {log : List (α × α)}

theorem Spends.time_le (h : Spends B b log b') : ∀ e ∈ log, e.1 ≤ b'.stamp := by
  induction h with
  | nil => simp
  | snoc _ hnow _ _ _ ih =>
    intro e he
    rcases List.mem_append.mp he with he | he
    · exact (ih e he).trans hnow
    · rw [List.mem_singleton.mp he]
      exact le_rfl

section Ordered

variable [IsStrictOrderedRing α]

theorem Bucket.Valid.level_nonneg (hb : b.Valid B) (hB : 0 ≤ B) (hnow : b.stamp ≤ now) :
    0 ≤ b.level B now := by
  have h : 0 ≤ min (now - b.stamp) B := le_min (sub_nonneg.mpr hnow) hB
  exact le_min hB (add_nonneg hb.nonneg h)

theorem Bucket.Valid.take (hc : 0 ≤ c) (hle : c ≤ b.level B now) :
    (b.take B now c).Valid B :=
  ⟨sub_nonneg.mpr hle, (sub_le_self _ hc).trans level_le_depth⟩

theorem Bucket.level_take (hc : 0 ≤ c) (hB : 0 ≤ B) :
    (b.take B now c).level B now = b.level B now - c := by
  have h : b.level B now - c ≤ B := (sub_le_self _ hc).trans level_le_depth
  simp [Bucket.level, Bucket.take, hB] at h ⊢
  exact h

theorem Bucket.level_add_le {s : α} (hs : s ≤ now) : b.level B now ≤ b.level B s + (now - s) := by
  have h₁ : min (now - b.stamp) B ≤ min (s - b.stamp) B + (now - s) := by
    rw [← min_add_add_right]
    exact min_le_min (by linarith) (by linarith)
  unfold level
  rw [← min_add_add_right]
  exact min_le_min (by linarith) (by linarith)

theorem Bucket.Valid.level_eq (hb : b.Valid B) (hlow : b.level B now < B) :
    b.level B now = b.tokens + (now - b.stamp) := by
  have hsum : b.level B now = b.tokens + min (now - b.stamp) B := by
    rcases min_choice B (b.tokens + min (now - b.stamp) B) with h | h
    · exact absurd h hlow.ne
    · exact h
  rcases le_total (now - b.stamp) B with h | h
  · rwa [min_eq_left h] at hsum
  · rw [min_eq_right h] at hsum
    have := hb.nonneg
    linarith

theorem Bucket.Valid.isLeast_pays (hb : b.Valid B) (hlow : b.level B now < c) (hc : c ≤ B) :
    IsLeast {t | now ≤ t ∧ c ≤ b.level B t} (now + (c - b.level B now)) := by
  have hlevel := hb.level_eq (hlow.trans_le hc)
  refine ⟨⟨by linarith, le_min hc ?_⟩, fun t ⟨_, ht⟩ => ?_⟩
  · rw [hlevel, ← min_add_add_left]
    have := hb.nonneg
    exact le_min (by linarith) (by linarith)
  · have h₁ : b.level B t ≤ b.tokens + min (t - b.stamp) B := min_le_right _ _
    have h₂ : min (t - b.stamp) B ≤ t - b.stamp := min_le_left _ _
    linarith

theorem Bucket.Valid.level_take_le (hb : b.Valid B) (hc : 0 ≤ c) {s : α} :
    (b.take B now c).level B s ≤ b.level B s := by
  refine le_min level_le_depth ?_
  have h₁ : (b.take B now c).level B s ≤ b.level B now - c + min (s - now) B := min_le_right _ _
  have h₂ : b.level B now ≤ b.tokens + min (now - b.stamp) B := min_le_right _ _
  have h₃ : min (s - now) B ≤ s - now := min_le_left _ _
  have h₄ : min (now - b.stamp) B ≤ now - b.stamp := min_le_left _ _
  rcases le_total (s - b.stamp) B with h | h
  · rw [min_eq_left h]
    linarith
  · have h₅ : (b.take B now c).level B s ≤ B := level_le_depth
    have := hb.nonneg
    rw [min_eq_right h]
    linarith

theorem Spends.valid (h : Spends B b log b') (hb : b.Valid B) : b'.Valid B := by
  induction h with
  | nil => exact hb
  | snoc _ _ hc' hle hc _ => exact .take (hc'.trans hle) hc

/-- What was withdrawn since `s`, and what the bucket still holds at any later
time `u`, fit in the depth and the time since `s`. -/
theorem Spends.since (h : Spends B b log b') (hb : b.Valid B) (hB : 0 ≤ B) {s u : α}
    (hsu : s ≤ u) (hu : b'.stamp ≤ u) :
    ((log.filter fun e => s ≤ e.1).map Prod.snd).sum + b'.level B u ≤ B + (u - s) := by
  induction h generalizing u with
  | nil =>
    have h₁ : b.level B u ≤ B := Bucket.level_le_depth
    simp only [List.filter_nil, List.map_nil, List.sum_nil, zero_add]
    linarith
  | @snoc log b₁ now c c' hprev hnow hc' hle hc ih =>
    have hvalid := hprev.valid hb
    have hpos : 0 ≤ c := hc'.trans hle
    change now ≤ u at hu
    rw [List.filter_append, List.map_append, List.sum_append]
    -- a charge inside the window lowers the level by what it takes, one before it cannot raise it
    by_cases hs : s ≤ now
    · have h₁ := ih hs hnow
      have h₂ : (b₁.take B now c).level B u ≤ b₁.level B now - c + (u - now) := by
        rw [← Bucket.level_take hpos hB]
        exact Bucket.level_add_le hu
      simp only [List.filter_singleton, hs, decide_true, cond_true, List.map_cons, List.map_nil,
        List.sum_cons, List.sum_nil]
      linarith
    · have h₁ := ih hsu (hnow.trans hu)
      have h₂ := @Bucket.Valid.level_take_le α _ _ B now c b₁ _ hvalid hpos u
      simp only [List.filter_singleton, hs, decide_false, cond_false, List.map_nil, List.sum_nil]
      linarith

theorem Spends.spent_le (h : Spends B b log b') (hb : b.Valid B) (hB : 0 ≤ B) {s t : α}
    (hst : s ≤ t) : spent s t log ≤ B + (t - s) := by
  induction h with
  | nil =>
    rw [spent_nil]
    linarith
  | @snoc log b₁ now c c' hprev hnow hc' hle hc ih =>
    by_cases ht : now ≤ t
    · have hall : spent s t (log ++ [(now, c')]) =
          (((log ++ [(now, c')]).filter fun e => s ≤ e.1).map Prod.snd).sum := by
        unfold spent
        congr 2
        refine List.filter_congr fun e he => ?_
        have := (hprev.snoc hnow hc' hle hc).time_le e he
        simp [this.trans ht]
      have h₁ := (hprev.snoc hnow hc' hle hc).since hb hB hst ht
      have h₂ := (hprev.snoc hnow hc' hle hc).valid hb |>.level_nonneg hB ht
      rw [hall]
      linarith
    · rw [spent_append, spent_singleton, if_neg (by simp [ht])]
      linarith

end Ordered

end MeasurementLimiter.TokenBucket
