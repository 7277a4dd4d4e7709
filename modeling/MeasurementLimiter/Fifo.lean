import MeasurementLimiter.Runs

namespace MeasurementLimiter.Fifo

open Runs

variable {α : Type*}

inductive Act (α : Type*)
  | push (a : α)
  | pop (a : α)
  | idle

inductive Step : List α → Act α → List α → Prop
  | push (q a) : Step q (.push a) (q ++ [a])
  | pop (a q) : Step (a :: q) (.pop a) q
  | idle (q) : Step q .idle q

def Act.pushed : Act α → Option α
  | .push a => some a
  | _ => none

def Act.popped : Act α → Option α
  | .pop a => some a
  | _ => none

def pushed (acts : List (Act α)) : List α := acts.filterMap Act.pushed

def popped (acts : List (Act α)) : List α := acts.filterMap Act.popped

theorem pushed_snoc (acts : List (Act α)) (act : Act α) :
    pushed (acts ++ [act]) = pushed acts ++ act.pushed.toList := by
  cases act <;> simp [pushed, Act.pushed, List.filterMap_cons]

theorem popped_snoc (acts : List (Act α)) (act : Act α) :
    popped (acts ++ [act]) = popped acts ++ act.popped.toList := by
  cases act <;> simp [popped, Act.popped, List.filterMap_cons]

theorem Step.conserves {q q' : List α} {act : Act α} {acts : List (Act α)} (s : Step q act q')
    (h : popped acts ++ q = pushed acts) :
    popped (acts ++ [act]) ++ q' = pushed (acts ++ [act]) := by
  rw [pushed_snoc, popped_snoc, ← h]
  cases s <;> simp [Act.popped, Act.pushed]

/-- Refinement: if every call that keeps `I` acts on the represented list as on a queue,
then along every run the list is what was pushed and not yet popped. -/
theorem conserved {σ ι ω ε : Type*} {step : σ → ι → Except ε (ω × σ)} {C : σ → ι → Prop} {s₀ : σ}
    {I : σ → Prop} {rep : σ → List α} {act : ι × ω → Act α} (h₀ : I s₀) (hrep : rep s₀ = [])
    (hstep : ∀ s i o s', I s → C s i → step s i = .ok (o, s') →
      I s' ∧ Step (rep s) (act (i, o)) (rep s'))
    {h : List (ι × ω)} {s : σ} (r : GuardedRun step C s₀ h s) :
    popped (h.map act) ++ rep s = pushed (h.map act) := by
  suffices I s ∧ popped (h.map act) ++ rep s = pushed (h.map act) from this.2
  refine r.invariant (I := fun h s => I s ∧ popped (h.map act) ++ rep s = pushed (h.map act))
    ⟨h₀, by simp [hrep, popped, pushed]⟩ ?_
  intro h s i o s' ih hC hs
  obtain ⟨hI, hact⟩ := hstep s i o s' ih.1 hC hs
  rw [List.map_append, List.map_singleton]
  exact ⟨hI, hact.conserves ih.2⟩

end MeasurementLimiter.Fifo
