import Mathlib

namespace MeasurementLimiter.Argmax

variable {α β γ : Type*} [LinearOrder β] {R : α → α → Prop} {f : α → β} {g : α → γ} {l : List α}
  {a b : α}

/-- `a` has the largest value of the elements of `l`, and comes before all others that
have it. -/
structure FirstMax (R : α → α → Prop) (f : α → β) (l : List α) (a : α) : Prop where
  mem : a ∈ l
  max : ∀ b ∈ l, f b ≤ f a
  first : ∀ b ∈ l, f b = f a → b = a ∨ R a b

def keep (f : α → β) (best : β × α) (a : α) : β × α := if best.1 < f a then (f a, a) else best

theorem FirstMax.replace (hlt : ∀ b ∈ l, f b < f a) : FirstMax R f (l ++ [a]) a := by
  refine ⟨List.mem_append_right _ List.mem_cons_self, fun b hb => ?_, fun b hb heq => ?_⟩
  · rcases List.mem_append.mp hb with hb | hb
    · exact (hlt b hb).le
    · rw [List.mem_singleton.mp hb]
  · rcases List.mem_append.mp hb with hb | hb
    · exact absurd heq (hlt b hb).ne
    · exact .inl (List.mem_singleton.mp hb)

theorem FirstMax.concat (h : FirstMax R f l a) (hle : f b ≤ f a) (hlate : R a b) :
    FirstMax R f (l ++ [b]) a := by
  refine ⟨List.mem_append_left _ h.mem, fun c hc => ?_, fun c hc heq => ?_⟩
  · rcases List.mem_append.mp hc with hc | hc
    · exact h.max c hc
    · rwa [List.mem_singleton.mp hc]
  · rcases List.mem_append.mp hc with hc | hc
    · exact h.first c hc heq
    · rw [List.mem_singleton.mp hc]
      exact .inr hlate

/-- The rule of the loop: no value exceeds the one it starts with, or it ends with the first
maximum. -/
theorem foldl_keep (hl : l.Pairwise R) (best : β × α) :
    ((∀ a ∈ l, f a ≤ best.1) ∧ l.foldl (keep f) best = best) ∨
      ∃ a, FirstMax R f l a ∧ l.foldl (keep f) best = (f a, a) := by
  induction l using List.reverseRecOn with
  | nil => exact .inl ⟨fun _ h => absurd h List.not_mem_nil, rfl⟩
  | append_singleton l b ih =>
    obtain ⟨hsorted, -, hlast⟩ := List.pairwise_append.mp hl
    rw [List.foldl_append, List.foldl_cons, List.foldl_nil]
    rcases ih hsorted with ⟨hle, heq⟩ | ⟨a, h, heq⟩
    · rw [heq, keep]
      split_ifs with hlt
      · exact .inr ⟨b, FirstMax.replace fun c hc => (hle c hc).trans_lt hlt, rfl⟩
      · refine .inl ⟨fun c hc => ?_, rfl⟩
        rcases List.mem_append.mp hc with hc | hc
        · exact hle c hc
        · rw [List.mem_singleton.mp hc]
          exact not_lt.mp hlt
    · rw [heq, keep]
      split_ifs with hlt
      · exact .inr ⟨b, FirstMax.replace fun c hc => (h.max c hc).trans_lt hlt, rfl⟩
      · exact .inr ⟨a, h.concat (not_lt.mp hlt) (hlast a h.mem b List.mem_cons_self), rfl⟩

theorem FirstMax.unique (hR : ∀ a b, R a b → ¬R b a) (h : FirstMax R f l a)
    (h' : FirstMax R f l b) : a = b := by
  have heq : f a = f b := le_antisymm (h'.max a h.mem) (h.max b h'.mem)
  rcases h.first b h'.mem heq.symm with hab | hab
  · exact hab.symm
  · rcases h'.first a h.mem heq with hba | hba
    · exact hba
    · exact absurd hba (hR a b hab)

theorem FirstMax.congr [LinearOrder γ] (hle : ∀ a ∈ l, ∀ b ∈ l, f a ≤ f b ↔ g a ≤ g b)
    (h : FirstMax R f l a) : FirstMax R g l a := by
  refine ⟨h.mem, fun b hb => (hle b hb a h.mem).mp (h.max b hb), fun b hb heq => ?_⟩
  refine h.first b hb (le_antisymm (h.max b hb) ?_)
  exact (hle a h.mem b hb).mpr heq.ge

end MeasurementLimiter.Argmax
