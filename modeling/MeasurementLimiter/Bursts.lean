import MeasurementLimiter.TokenBucket

namespace MeasurementLimiter.Bursts

open TokenBucket

variable {α : Type*} [CommRing α] [LinearOrder α]

/-- What was sent since the last pause began, the end of that pause, and the time of the
last send or pause. -/
structure Sender (α : Type*) where
  burst : α
  free : α
  last : α

/-- `Sends D s log s'`: a sender goes from `s` to `s'` by sends and pauses at nondecreasing
times, with bursts that cost at most `D`, and `log` has the time and the cost of each send. -/
inductive Sends (D : α) (s : Sender α) : List (α × α) → Sender α → Prop
  | nil : Sends D s [] s
  | send {log s₁ now c} : Sends D s log s₁ → s₁.last ≤ now → s₁.free ≤ now → 0 ≤ c →
      s₁.burst + c ≤ D → Sends D s (log ++ [(now, c)]) ⟨s₁.burst + c, s₁.free, now⟩
  | pause {log s₁ now} : Sends D s log s₁ → s₁.last ≤ now → s₁.free ≤ now →
      Sends D s log ⟨0, now + s₁.burst, now⟩

variable {D t₀ s t : α} {log : List (α × α)} {r : Sender α}

def start (t₀ : α) : Sender α := ⟨0, t₀, t₀⟩

theorem Sends.free_le (h : Sends D (start t₀) log r) (hburst : 0 < r.burst) : r.free ≤ r.last := by
  cases h with
  | nil => exact le_rfl
  | send _ _ hfree _ _ => exact hfree
  | pause => exact absurd hburst (lt_irrefl 0)

section Ordered

variable [IsStrictOrderedRing α]

theorem Sends.burst_nonneg (h : Sends D (start t₀) log r) : 0 ≤ r.burst := by
  induction h with
  | nil => exact le_rfl
  | send _ _ _ hc _ ih => exact add_nonneg ih hc
  | pause => exact le_rfl

theorem level_grows {B now u : α} {b : Bucket α} (hb : b.Valid B) :
    min B (b.level B now + (u - now)) ≤ b.level B u := by
  have h₁ : b.level B now ≤ b.tokens + (now - b.stamp) :=
    (min_le_right _ _).trans (add_le_add_right (min_le_left _ _) _)
  have h₂ := hb.nonneg
  refine le_min (min_le_left _ _) ?_
  rw [← min_add_add_left]
  refine le_min ((min_le_right _ _).trans ?_) ((min_le_left _ _).trans ?_)
  · linarith
  · linarith

/-- The bucket behind a sender.  It lacks at most the burst and what is left of the pause. -/
theorem Sends.bucket (hD : 0 ≤ D) (h : Sends D (start t₀) log r) :
    ∃ b : Bucket α, Spends D ⟨D, t₀⟩ log b ∧ b.Valid D ∧ b.stamp ≤ r.last ∧
      ∀ u, r.last ≤ u → D ≤ b.level D u + r.burst + max 0 (r.free - u) := by
  induction h with
  | nil =>
    refine ⟨⟨D, t₀⟩, .nil, ⟨hD, le_rfl⟩, le_rfl, fun u hu => ?_⟩
    have hfull : D ≤ (⟨D, t₀⟩ : Bucket α).level D u :=
      le_min le_rfl (le_add_of_nonneg_right (le_min (sub_nonneg.mpr hu) hD))
    have := le_max_left 0 ((start t₀).free - u)
    change D ≤ _ + 0 + _
    linarith
  | @send log s₁ now c h hlast hfree hc hburst ih =>
    obtain ⟨b, hspends, hb, hstamp, hlevel⟩ := ih
    have hnow := hlevel now hlast
    rw [max_eq_left (sub_nonpos.mpr hfree)] at hnow
    have hpays : c ≤ b.level D now := by linarith
    refine ⟨b.take D now c, .snoc hspends (hstamp.trans hlast) hc le_rfl hpays,
      Bucket.Valid.take hc hpays, le_rfl, fun u hu => ?_⟩
    -- the bucket has at least what it had right after the packet
    have hkept : b.level D now - c ≤ (b.take D now c).level D u :=
      le_min ((sub_le_self _ hc).trans Bucket.level_le_depth)
        (le_add_of_nonneg_right (le_min (sub_nonneg.mpr hu) hD))
    have := le_max_left 0 (s₁.free - u)
    dsimp only
    linarith
  | @pause log s₁ now h hlast hfree ih =>
    obtain ⟨b, hspends, hb, hstamp, hlevel⟩ := ih
    refine ⟨b, hspends, hb, hstamp.trans hlast, fun u hu => ?_⟩
    have hnow := hlevel now hlast
    rw [max_eq_left (sub_nonpos.mpr hfree)] at hnow
    have hgrown : min D (b.level D now + (u - now)) ≤ b.level D u := level_grows hb
    have hburst := h.burst_nonneg
    dsimp only
    rcases min_le_iff.mp hgrown with hfull | hmore
    · have := le_max_left 0 (now + s₁.burst - u)
      linarith
    · have := le_max_right 0 (now + s₁.burst - u)
      linarith

/-- In any window such a sender sends at most the longest burst and the length of the
window. -/
theorem Sends.spent_le (hD : 0 ≤ D) (h : Sends D (start t₀) log r) (hst : s ≤ t) :
    spent s t log ≤ D + (t - s) := by
  obtain ⟨b, hspends, -⟩ := h.bucket hD
  exact hspends.spent_le ⟨hD, le_rfl⟩ hD hst

end Ordered

end MeasurementLimiter.Bursts
