import Mathlib

namespace MeasurementLimiter.Runs

variable {σ σ' ι ω ε : Type*} {step : σ → ι → Except ε (ω × σ)} {C : σ → ι → Prop} {s₀ : σ}

inductive GuardedRun (step : σ → ι → Except ε (ω × σ)) (C : σ → ι → Prop) (s₀ : σ) :
    List (ι × ω) → σ → Prop
  | nil : GuardedRun step C s₀ [] s₀
  | snoc {h s i o s'} : GuardedRun step C s₀ h s → C s i → step s i = .ok (o, s') →
      GuardedRun step C s₀ (h ++ [(i, o)]) s'

abbrev Run (step : σ → ι → Except ε (ω × σ)) (s₀ : σ) : List (ι × ω) → σ → Prop :=
  GuardedRun step (fun _ _ => True) s₀

theorem GuardedRun.invariant {I : List (ι × ω) → σ → Prop} (h₀ : I [] s₀)
    (hstep : ∀ h s i o s', I h s → C s i → step s i = .ok (o, s') → I (h ++ [(i, o)]) s')
    {h : List (ι × ω)} {s : σ} (r : GuardedRun step C s₀ h s) : I h s := by
  induction r with
  | nil => exact h₀
  | snoc _ hC hs ih => exact hstep _ _ _ _ _ ih hC hs

theorem GuardedRun.keeps {I : σ → Prop} (h₀ : I s₀)
    (hstep : ∀ s i o s', I s → C s i → step s i = .ok (o, s') → I s')
    {h : List (ι × ω)} {s : σ} (r : GuardedRun step C s₀ h s) : I s :=
  r.invariant (I := fun _ s => I s) h₀ fun _ s i o s' => hstep s i o s'

theorem GuardedRun.mono {D : σ → ι → Prop} (hCD : ∀ s i, C s i → D s i)
    {h : List (ι × ω)} {s : σ} (r : GuardedRun step C s₀ h s) : GuardedRun step D s₀ h s := by
  induction r with
  | nil => exact .nil
  | snoc _ hC hs ih => exact .snoc ih (hCD _ _ hC) hs

theorem GuardedRun.append {h h' : List (ι × ω)} {s s' : σ} (r : GuardedRun step C s₀ h s)
    (r' : GuardedRun step C s h' s') : GuardedRun step C s₀ (h ++ h') s' := by
  induction r' with
  | nil => simpa using r
  | snoc _ hC hs ih =>
    rw [← List.append_assoc]
    exact .snoc ih hC hs

theorem GuardedRun.cons {h : List (ι × ω)} {s₁ s : σ} {i : ι} {o : ω} (hC : C s₀ i)
    (hs : step s₀ i = .ok (o, s₁)) (r : GuardedRun step C s₁ h s) :
    GuardedRun step C s₀ ((i, o) :: h) s :=
  GuardedRun.append (.snoc (h := []) .nil hC hs) r

theorem GuardedRun.last {h : List (ι × ω)} {e : ι × ω} {s : σ}
    (r : GuardedRun step C s₀ (h ++ [e]) s) :
    ∃ s', GuardedRun step C s₀ h s' ∧ C s' e.1 ∧ step s' e.1 = .ok (e.2, s) := by
  generalize hx : h ++ [e] = x at r
  cases r with
  | nil => simp at hx
  | snoc r hC hs =>
    obtain ⟨rfl, he⟩ := List.append_inj' hx rfl
    obtain rfl := List.singleton_inj.mp he
    exact ⟨_, r, hC, hs⟩

theorem GuardedRun.unique {D : σ → ι → Prop} {h : List (ι × ω)} {s s' : σ}
    (r : GuardedRun step C s₀ h s) (r' : GuardedRun step D s₀ h s') : s = s' := by
  induction r generalizing s' with
  | nil =>
    generalize hx : ([] : List (ι × ω)) = x at r'
    cases r' with
    | nil => rfl
    | snoc => simp at hx
  | snoc _ _ hs ih =>
    obtain ⟨t, r₁, -, hs'⟩ := r'.last
    rw [ih r₁, hs'] at hs
    exact (Prod.mk.inj (Except.ok.inj hs)).2.symm

theorem GuardedRun.truncate {h h' : List (ι × ω)} {s : σ} (r : GuardedRun step C s₀ h s)
    (hp : h' <+: h) : ∃ s', GuardedRun step C s₀ h' s' := by
  induction r with
  | nil =>
    rw [List.prefix_nil.mp hp]
    exact ⟨s₀, .nil⟩
  | snoc r hC hs ih =>
    rcases List.prefix_concat_iff.mp hp with rfl | hp
    · exact ⟨_, .snoc r hC hs⟩
    · exact ih hp

/-- Where no call restores `I`, and a call keeps it if and only if it meets `C`, it holds at
the end of the runs whose calls meet `C`.  `J` is what is known of every state. -/
theorem iff_guarded {I J : σ → Prop} (h₀ : I s₀) (hJ₀ : J s₀)
    (hJ : ∀ s i o s', J s → step s i = .ok (o, s') → J s')
    (hback : ∀ s i o s', step s i = .ok (o, s') → I s' → I s)
    (hstep : ∀ s i o s', J s → I s → step s i = .ok (o, s') → (I s' ↔ C s i))
    {h : List (ι × ω)} {s : σ} (r : Run step s₀ h s) : I s ↔ GuardedRun step C s₀ h s := by
  constructor
  · induction r with
    | nil => exact fun _ => .nil
    | snoc r _ hs ih =>
      intro hI
      have hlast := hback _ _ _ _ hs hI
      have hknown := r.keeps hJ₀ fun s i o s' hs _ heq => hJ s i o s' hs heq
      exact .snoc (ih hlast) ((hstep _ _ _ _ hknown hlast hs).mp hI) hs
  · intro r'
    have := r'.keeps (I := fun s => J s ∧ I s) ⟨hJ₀, h₀⟩ fun s i o s' hs hC heq =>
      ⟨hJ s i o s' hs.1 heq, (hstep s i o s' hs.1 hs.2 heq).mpr hC⟩
    exact this.2

theorem GuardedRun.and {D : σ → ι → Prop} {h : List (ι × ω)} {s s' : σ}
    (r : GuardedRun step C s₀ h s) (r' : GuardedRun step D s₀ h s') :
    GuardedRun step (fun s i => C s i ∧ D s i) s₀ h s := by
  induction r generalizing s' with
  | nil => exact .nil
  | snoc r hC hs ih =>
    obtain ⟨t, r₁, hD, -⟩ := r'.last
    obtain rfl := r.unique r₁
    exact .snoc (ih r₁) ⟨hC, hD⟩ hs

theorem prefix_closed {D : List (ι × ω) → Prop} (hD : ∀ h e, D (h ++ [e]) → D h)
    {h h' : List (ι × ω)} (d : D h) (hp : h' <+: h) : D h' := by
  induction h using List.reverseRecOn with
  | nil => exact (List.prefix_nil.mp hp) ▸ d
  | append_singleton h e ih =>
    rcases List.prefix_concat_iff.mp hp with rfl | hp
    · exact d
    · exact ih (hD h e d) hp

/-- Along the runs whose calls meet `B` and whose histories meet `D`: where a call keeps `I`
if and only if it meets `C`, the runs through whose states `I` holds are the runs whose calls
meet `C`.  `J` is what is known of every state and its history. -/
theorem GuardedRun.always_iff {B : σ → ι → Prop} {I J : List (ι × ω) → σ → Prop}
    {D : List (ι × ω) → Prop} (hD : ∀ h e, D (h ++ [e]) → D h) (h₀ : I [] s₀) (hJ₀ : J [] s₀)
    (hstep : ∀ h s i o s', J h s → B s i → D (h ++ [(i, o)]) → step s i = .ok (o, s') →
      J (h ++ [(i, o)]) s' ∧ (I h s → (I (h ++ [(i, o)]) s' ↔ C s i)))
    {h : List (ι × ω)} {s : σ} (r : GuardedRun step B s₀ h s) (d : D h) :
    (∀ h' s', h' <+: h → Run step s₀ h' s' → I h' s') ↔ GuardedRun step C s₀ h s := by
  -- in a run of either kind what is known of the state holds
  have hkeep : ∀ {E : σ → ι → Prop} {h s}, (∀ s i, E s i → B s i) → GuardedRun step E s₀ h s →
      D h → J h s := by
    intro E h s hE r d
    induction r with
    | nil => exact hJ₀
    | snoc r hC hs ih => exact (hstep _ _ _ _ _ (ih (hD _ _ d)) (hE _ _ hC) d hs).1
  constructor
  -- `I` holds before the last call and after it, which is what guards it
  · induction r with
    | nil => exact fun _ => .nil
    | snoc r hB hs ih =>
      intro hI
      have hrun := r.mono fun _ _ _ => trivial
      have hlast := hI _ _ (List.prefix_append _ _) hrun
      refine .snoc (ih (hD _ _ d) fun h' s' hp => hI h' s' (hp.trans (List.prefix_append _ _))) ?_ hs
      have hiff := (hstep _ _ _ _ _ (hkeep (fun _ _ h => h) r (hD _ _ d)) hB d hs).2 hlast
      exact hiff.mp (hI _ _ (List.prefix_refl _) (.snoc hrun trivial hs))
  · intro r' h' s' hp run
    obtain ⟨t, r₁⟩ := (r.and r').truncate hp
    rw [run.unique r₁]
    have d' := prefix_closed hD d hp
    clear run hp
    induction r₁ with
    | nil => exact h₀
    | snoc r₁ hC hs ih =>
      have hknown := hkeep (fun _ _ h => h.1) r₁ (hD _ _ d')
      exact ((hstep _ _ _ _ _ hknown hC.1 d' hs).2 (ih (hD _ _ d'))).mpr hC.2

/-- Where a call keeps `I` if and only if it meets `C`, the runs through whose states `I`
holds are the runs whose calls meet `C`.  `J` is what is known of every state. -/
theorem always_iff_guarded {I J : σ → Prop} (h₀ : I s₀) (hJ₀ : J s₀)
    (hJ : ∀ s i o s', J s → step s i = .ok (o, s') → J s')
    (hstep : ∀ s i o s', J s → I s → step s i = .ok (o, s') → (I s' ↔ C s i))
    {h : List (ι × ω)} {s : σ} (r : Run step s₀ h s) :
    (∀ h' s', h' <+: h → Run step s₀ h' s' → I s') ↔ GuardedRun step C s₀ h s :=
  r.always_iff (I := fun _ s => I s) (J := fun _ s => J s) (D := fun _ => True)
    (fun _ _ d => d) h₀ hJ₀ (fun _ s i o s' hJs _ _ hs =>
      ⟨hJ s i o s' hJs hs, fun hIs => hstep s i o s' hJs hIs hs⟩) trivial

/-- Where a call goes as `P` asks if and only if it meets `C`, the runs all of whose calls
go so are the runs whose calls meet `C`.  `J` is what is known of every state. -/
theorem calls_iff_guarded {P : σ → ι → ω → σ → Prop} {J : σ → Prop} (hJ₀ : J s₀)
    (hJ : ∀ s i o s', J s → step s i = .ok (o, s') → J s')
    (hstep : ∀ s i o s', J s → step s i = .ok (o, s') → (P s i o s' ↔ C s i))
    {h : List (ι × ω)} {s : σ} (r : Run step s₀ h s) :
    (∀ h' s i o s', h' ++ [(i, o)] <+: h → Run step s₀ h' s → step s i = .ok (o, s') →
      P s i o s') ↔ GuardedRun step C s₀ h s := by
  have hkeep : ∀ {D : σ → ι → Prop} {h s}, GuardedRun step D s₀ h s → J s := fun r =>
    r.keeps hJ₀ fun s i o s' hs _ heq => hJ s i o s' hs heq
  constructor
  · induction r with
    | nil => exact fun _ => .nil
    | snoc r _ hs ih =>
      intro hP
      refine .snoc (ih fun h' s i o s' hp => hP h' s i o s' (hp.trans (List.prefix_append _ _))) ?_ hs
      exact (hstep _ _ _ _ (hkeep r) hs).mp (hP _ _ _ _ _ (List.prefix_refl _) r hs)
  · intro r' h' s i o s' hp run hs
    obtain ⟨t, r₁⟩ := r'.truncate hp
    obtain ⟨u, r₂, hC, -⟩ := r₁.last
    obtain rfl := run.unique r₂
    exact (hstep s i o s' (hkeep r₂) hs).mpr hC

/-- The same rule for an effect `P` that does not look at the state before the call. -/
theorem steps_iff_guarded {P : ι → ω → σ → Prop} {J : σ → Prop} (hJ₀ : J s₀)
    (hJ : ∀ s i o s', J s → step s i = .ok (o, s') → J s')
    (hstep : ∀ s i o s', J s → step s i = .ok (o, s') → (P i o s' ↔ C s i))
    {h : List (ι × ω)} {s : σ} (r : Run step s₀ h s) :
    (∀ h' i o s', h' ++ [(i, o)] <+: h → Run step s₀ (h' ++ [(i, o)]) s' → P i o s') ↔
      GuardedRun step C s₀ h s := by
  rw [← calls_iff_guarded hJ₀ hJ hstep r]
  constructor
  · intro hP h' s i o s' hp run hs
    exact hP h' i o s' hp (.snoc run trivial hs)
  · intro hP h' i o s' hp run
    obtain ⟨s, r₁, -, hs⟩ := run.last
    exact hP h' s i o s' hp r₁ hs

theorem GuardedRun.unique_of_calls {D : σ → ι → Prop} {h h' : List (ι × ω)} {s s' : σ}
    (r : GuardedRun step C s₀ h s) (r' : GuardedRun step D s₀ h' s')
    (hcalls : h.map Prod.fst = h'.map Prod.fst) : h = h' ∧ s = s' := by
  induction r generalizing h' s' with
  | nil =>
    obtain rfl : h' = [] := List.map_eq_nil_iff.mp hcalls.symm
    exact ⟨rfl, (r'.unique (D := C) .nil).symm⟩
  | @snoc h s i o s₁ r _ hs ih =>
    cases r' with
    | nil => simp at hcalls
    | @snoc h' t j o' s' r' _ ht =>
      rw [List.map_append, List.map_append] at hcalls
      obtain ⟨hinit, hlast⟩ := List.append_inj' hcalls rfl
      obtain ⟨rfl, rfl⟩ := ih r' hinit
      obtain rfl : i = j := List.singleton_inj.mp hlast
      obtain ⟨rfl, rfl⟩ := Prod.mk.inj (Except.ok.inj (hs.symm.trans ht))
      exact ⟨rfl, rfl⟩

/-- A list of calls runs to its end if and only if every call of it returns where it is made. -/
theorem exists_run_iff {is : List ι} : (∃ h s, Run step s₀ h s ∧ h.map Prod.fst = is) ↔
    ∀ h s i, Run step s₀ h s → h.map Prod.fst ++ [i] <+: is → ∃ r, step s i = .ok r := by
  constructor
  · rintro ⟨h, s, run, rfl⟩ h' s' i run' hp
    obtain ⟨rest, hrest⟩ := hp
    have hlen : h'.length < h.length := by
      have := congrArg List.length hrest
      simp only [List.length_append, List.length_map, List.length_singleton] at this
      omega
    obtain ⟨t, before⟩ := run.truncate (List.take_prefix (h'.length + 1) h)
    rw [List.take_succ_eq_append_getElem hlen] at before
    obtain ⟨u, hu, -, hs⟩ := before.last
    have hcalls : (h.take h'.length).map Prod.fst = h'.map Prod.fst := by
      rw [List.map_take, ← hrest, List.append_assoc, List.take_left' (List.length_map _)]
    have hcall : h[h'.length].1 = i := by
      have hi : (h.map Prod.fst)[h'.length]? = some i := by
        rw [← hrest, List.append_assoc, List.getElem?_append_right (by simp)]
        simp
      rw [List.getElem?_map, List.getElem?_eq_getElem hlen] at hi
      exact Option.some.inj hi
    obtain ⟨-, rfl⟩ := hu.unique_of_calls run' hcalls
    rw [hcall] at hs
    exact ⟨_, hs⟩
  · intro hreturns
    induction is using List.reverseRecOn with
    | nil => exact ⟨[], s₀, .nil, rfl⟩
    | append_singleton is i ih =>
      obtain ⟨h, s, run, rfl⟩ := ih fun h s j run hp =>
        hreturns h s j run (hp.trans (List.prefix_append _ _))
      obtain ⟨⟨o, s'⟩, hs⟩ := hreturns h s i run (List.prefix_refl _)
      exact ⟨h ++ [(i, o)], s', .snoc run trivial hs, by simp⟩

theorem exists_run_prefix {is is' : List ι} (hrun : ∃ h s, Run step s₀ h s ∧ h.map Prod.fst = is)
    (hp : is' <+: is) : ∃ h s, Run step s₀ h s ∧ h.map Prod.fst = is' :=
  exists_run_iff.mpr fun h s i run hp' => exists_run_iff.mp hrun h s i run (hp'.trans hp)

/-- Where a call that keeps `I` and lowers the measure `μ` can be made in every state that
is not in `G`, a run of such calls comes to `G`. -/
theorem exists_run_to {I : List (ι × ω) → σ → Prop} {G : σ → Prop} (μ : σ → ℕ) (h₀ : I [] s₀)
    (hstep : ∀ h s, I h s → ¬G s → ∃ i o s', C s i ∧ step s i = .ok (o, s') ∧
      I (h ++ [(i, o)]) s' ∧ μ s' < μ s) :
    ∃ h s, GuardedRun step C s₀ h s ∧ I h s ∧ G s := by
  suffices ∀ n h s, GuardedRun step C s₀ h s → I h s → μ s ≤ n →
      ∃ h s, GuardedRun step C s₀ h s ∧ I h s ∧ G s from this _ [] s₀ .nil h₀ le_rfl
  -- on a bound of the measure, which every call lowers
  intro n
  induction n with
  | zero =>
    intro h s r hI hle
    by_cases hG : G s
    · exact ⟨h, s, r, hI, hG⟩
    · obtain ⟨i, o, s', -, -, -, hlt⟩ := hstep h s hI hG
      omega
  | succ n ih =>
    intro h s r hI hle
    by_cases hG : G s
    · exact ⟨h, s, r, hI, hG⟩
    · obtain ⟨i, o, s', hC, hs, hI', hlt⟩ := hstep h s hI hG
      exact ih _ s' (.snoc r hC hs) hI' (by omega)

/-- Forward simulation: a second system that can answer every call of the first
with the same output follows each of its runs.  `D` is what the histories are
known to satisfy. -/
theorem GuardedRun.simulate {step' : σ' → ι → Except ε (ω × σ')} {a₀ : σ'}
    {D : List (ι × ω) → Prop} {R : List (ι × ω) → σ → σ' → Prop}
    (hD : ∀ h e, D (h ++ [e]) → D h) (h₀ : R [] s₀ a₀)
    (hstep : ∀ h s a i o s', R h s a → C s i → D (h ++ [(i, o)]) → step s i = .ok (o, s') →
      ∃ a', step' a i = .ok (o, a') ∧ R (h ++ [(i, o)]) s' a')
    {h : List (ι × ω)} {s : σ} (r : GuardedRun step C s₀ h s) (d : D h) :
    ∃ a, Run step' a₀ h a ∧ R h s a := by
  induction r with
  | nil => exact ⟨a₀, .nil, h₀⟩
  | snoc _ hC hs ih =>
    obtain ⟨a, ra, hR⟩ := ih (hD _ _ d)
    obtain ⟨a', ha, hR'⟩ := hstep _ _ _ _ _ _ hR hC d hs
    exact ⟨a', .snoc ra trivial ha, hR'⟩

theorem GuardedRun.simulate_guarded {T : σ' → ι → Except ε (ω × σ')} {D : σ' → ι → Prop}
    {a₀ : σ'} {R : σ → σ' → Prop} (h₀ : R s₀ a₀)
    (hstep : ∀ s a i o s', R s a → C s i → step s i = .ok (o, s') →
      D a i ∧ ∃ a', T a i = .ok (o, a') ∧ R s' a')
    {h : List (ι × ω)} {s : σ} (r : GuardedRun step C s₀ h s) :
    ∃ a, GuardedRun T D a₀ h a ∧ R s a := by
  induction r with
  | nil => exact ⟨a₀, .nil, h₀⟩
  | snoc _ hC hs ih =>
    obtain ⟨a, ra, hR⟩ := ih
    obtain ⟨hD, a', ha, hR'⟩ := hstep _ _ _ _ _ hR hC hs
    exact ⟨a', .snoc ra hD ha, hR'⟩

def exec (step : σ → ι → Except ε (ω × σ)) : σ → List ι → Except ε (List (ι × ω) × σ)
  | s, [] => .ok ([], s)
  | s, i :: is =>
    match step s i with
    | .error e => .error e
    | .ok (o, s') =>
      match exec step s' is with
      | .error e => .error e
      | .ok (h, t) => .ok ((i, o) :: h, t)

theorem exec_cons {i : ι} {is : List ι} {h : List (ι × ω)} {s : σ}
    (he : exec step s₀ (i :: is) = .ok (h, s)) :
    ∃ o s₁ h', step s₀ i = .ok (o, s₁) ∧ exec step s₁ is = .ok (h', s) ∧ h = (i, o) :: h' := by
  simp only [exec] at he
  split at he
  · cases he
  · rename_i o s₁ hs
    split at he
    · cases he
    · rename_i h' t hrest
      obtain ⟨rfl, rfl⟩ := Prod.mk.inj (Except.ok.inj he)
      exact ⟨o, s₁, h', hs, hrest, rfl⟩

/-- Where a computed run of a call and more ends is where the others end behind it. -/
theorem exec_cons_iff {P : σ → Prop} {i : ι} {is : List ι} :
    (∃ r, exec step s₀ (i :: is) = .ok r ∧ P r.2) ↔
      ∃ s, (∃ o, step s₀ i = .ok (o, s)) ∧ ∃ r, exec step s is = .ok r ∧ P r.2 := by
  constructor
  · rintro ⟨⟨h, s⟩, he, hP⟩
    obtain ⟨o, s₁, h', hs, hrest, rfl⟩ := exec_cons he
    exact ⟨s₁, ⟨o, hs⟩, (h', s), hrest, hP⟩
  · rintro ⟨s, ⟨o, hs⟩, ⟨h', s'⟩, hrest, hP⟩
    refine ⟨((i, o) :: h', s'), ?_, hP⟩
    rw [exec, hs]
    dsimp only
    rw [hrest]

theorem run_of_exec {is : List ι} {h : List (ι × ω)} {s : σ}
    (he : exec step s₀ is = .ok (h, s)) : Run step s₀ h s := by
  induction is generalizing s₀ h with
  | nil =>
    obtain ⟨rfl, rfl⟩ : [] = h ∧ s₀ = s := by simpa [exec] using he
    exact .nil
  | cons i is ih =>
    obtain ⟨o, s₁, h', hs, hrest, rfl⟩ := exec_cons he
    exact .cons trivial hs (ih hrest)

theorem exec_inputs {is : List ι} {h : List (ι × ω)} {s : σ}
    (he : exec step s₀ is = .ok (h, s)) : h.map Prod.fst = is := by
  induction is generalizing s₀ h with
  | nil =>
    obtain ⟨rfl, rfl⟩ : [] = h ∧ s₀ = s := by simpa [exec] using he
    rfl
  | cons i is ih =>
    obtain ⟨o, s₁, h', -, hrest, rfl⟩ := exec_cons he
    rw [List.map_cons, ih hrest]

theorem exists_run_of_isOk {is : List ι} (he : (exec step s₀ is).isOk) :
    ∃ h s, Run step s₀ h s ∧ h.map Prod.fst = is := by
  cases hr : exec step s₀ is with
  | error e =>
    rw [hr] at he
    cases he
  | ok r => exact ⟨r.1, r.2, run_of_exec hr, exec_inputs hr⟩

section Except

universe u

variable {α β : Type u}

@[simp] theorem ok_bind (x : α) (k : α → Except ε β) : (Except.ok x >>= k) = k x := rfl

@[simp] theorem error_bind (e : ε) (k : α → Except ε β) : (Except.error e >>= k) = .error e := rfl

theorem bind_eq_ok {x : Except ε α} {k : α → Except ε β} {b : β} :
    (x >>= k) = .ok b ↔ ∃ a, x = .ok a ∧ k a = .ok b := by
  cases x with
  | error e => simp
  | ok a => simp

theorem ite_bind_ite {p q : Prop} [Decidable p] [Decidable q] {a : α} {b : β} {e : ε}
    {γ : Type u} {k : α → β → Except ε γ} :
    ((if p then .ok a else .error e) >>= fun x => (if q then .ok b else .error e) >>= k x) =
      if p ∧ q then k a b else .error e := by
  by_cases hp : p
  case neg =>
    rw [if_neg hp, if_neg fun h : p ∧ q => hp h.1]
    rfl
  by_cases hq : q
  case neg =>
    rw [if_pos hp, if_neg hq, if_neg fun h : p ∧ q => hq h.2]
    rfl
  rw [if_pos hp, if_pos hq, if_pos ⟨hp, hq⟩]
  rfl

theorem foldlM_ok {α β : Type*} {f : β → α → Except ε β} {I : β → Prop} {l : List α}
    (hstep : ∀ b a, a ∈ l → I b → ∃ b', f b a = .ok b' ∧ I b') {b : β} (hb : I b) :
    ∃ b', l.foldlM f b = .ok b' ∧ I b' := by
  induction l generalizing b with
  | nil => exact ⟨b, rfl, hb⟩
  | cons a l ih =>
    obtain ⟨b₁, h₁, hI₁⟩ := hstep b a List.mem_cons_self hb
    obtain ⟨b₂, h₂, hI₂⟩ := ih (fun b a ha => hstep b a (List.mem_cons_of_mem _ ha)) hI₁
    refine ⟨b₂, ?_, hI₂⟩
    rw [List.foldlM_cons, h₁]
    exact h₂

theorem foldlM_invariant {f : β → α → Except ε β} {I : List α → β → Prop} {b b' : β}
    (h₀ : I [] b) (hstep : ∀ l b a b', I l b → f b a = .ok b' → I (l ++ [a]) b') {l : List α}
    (h : l.foldlM f b = .ok b') : I l b' := by
  induction l using List.reverseRecOn generalizing b' with
  | nil =>
    obtain rfl : b = b' := Except.ok.inj h
    exact h₀
  | append_singleton l a ih =>
    simp only [List.foldlM_append, List.foldlM_cons, bind_eq_ok] at h
    obtain ⟨b₁, hl, b₂, hlast, hend⟩ := h
    obtain rfl : b₂ = b' := Except.ok.inj hend
    exact hstep l b₁ a b₂ (ih hl) hlast

theorem exists_ok {α β : Type*} {x : Except ε α} (f : α → β) {b : β}
    (h : x.toOption.map f = some b) : ∃ a, x = .ok a ∧ f a = b := by
  cases x with
  | error e => simp [Except.toOption] at h
  | ok a => exact ⟨a, rfl, by simpa [Except.toOption] using h⟩

end Except

theorem exists_run_of_exec {β : Type*} (f : σ → β) {b : β} {is : List ι}
    (he : (exec step s₀ is).toOption.map (fun r => f r.2) = some b) :
    ∃ h s, Run step s₀ h s ∧ f s = b := by
  obtain ⟨r, hr, hb⟩ := exists_ok _ he
  exact ⟨r.1, r.2, run_of_exec hr, hb⟩

def execGuarded (step : σ → ι → Except ε (ω × σ)) (C : σ → ι → Prop) [∀ s i, Decidable (C s i)] :
    σ → List ι → Option (List (ι × ω) × σ)
  | s, [] => some ([], s)
  | s, i :: is =>
    if C s i then
      match step s i with
      | .error _ => none
      | .ok (o, s') => (execGuarded step C s' is).map fun r => ((i, o) :: r.1, r.2)
    else none

theorem guardedRun_of_exec [∀ s i, Decidable (C s i)] {is : List ι} {r : List (ι × ω) × σ}
    (he : execGuarded step C s₀ is = some r) : GuardedRun step C s₀ r.1 r.2 := by
  induction is generalizing s₀ r with
  | nil =>
    obtain rfl := Option.some.inj he
    exact .nil
  | cons i is ih =>
    rw [execGuarded] at he
    split_ifs at he with hC
    split at he
    · cases he
    · rename_i o s' hs
      obtain ⟨r', hr', rfl⟩ := Option.map_eq_some_iff.mp he
      exact .cons hC hs (ih hr')

theorem exists_guardedRun_of_exec [∀ s i, Decidable (C s i)] {β : Type*} (f : σ → β) {b : β}
    {is : List ι} (he : (execGuarded step C s₀ is).map (fun r => f r.2) = some b) :
    ∃ h s, GuardedRun step C s₀ h s ∧ f s = b := by
  obtain ⟨r, hr, hb⟩ := Option.map_eq_some_iff.mp he
  exact ⟨r.1, r.2, guardedRun_of_exec hr, hb⟩

end MeasurementLimiter.Runs
