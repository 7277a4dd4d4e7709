import MeasurementLimiter.TsfSafety
import MeasurementLimiter.RingFifo

namespace MeasurementLimiter

open Runs

variable {K : Kernel} {o : Option Skb} {k k' : Ring} {q₀ q q' : Tsf}

inductive TimedCall
  | call (c : TsfCall)
  | expire
  deriving DecidableEq

def timedStep (K : Kernel) (q : Tsf) : TimedCall → Except Fault (Option TsfAnswer × Tsf)
  | .call c =>
    match tsfStep K q c with
    | .error e => .error e
    | .ok (a, q) => .ok (some a, q)
  | .expire => .ok (none, { q with watchdog := none })

abbrev TimedHistory := List (TimedCall × Option TsfAnswer)

def Tsf.Backlogged (q : Tsf) : Prop := q.kfifo.stored ≠ [] ∨ q.qdisc.skbs ≠ []

def Tsf.Woken (q : Tsf) : Prop := q.Backlogged → q.watchdog.isSome

/-- `tsf_dequeue` finds no packet: the bypass queue gives none, and the ring is empty or its
read node is drained and owes time. -/
def Tsf.Idle (q : Tsf) : Prop :=
  bypassHead q = none ∧ (q.kfifo.stored = [] ∨ q.kfifo.Owes)

def Kfifo.SleepsLong (k : Ring) : Prop := k.Owes ∧ 1000000 < (k.node k.pread).sleepTime

/-- A dequeue that finds no packet, while there is a backlog, comes with the watchdog set or
sleeps long. -/
def Tsf.Awake (q : Tsf) : TimedCall → Prop
  | .call (.dequeue _) =>
    q.Idle → q.Backlogged → q.watchdog.isSome ∨ q.kfifo.SleepsLong
  | _ => True

instance (q : Tsf) : Decidable q.Backlogged := by unfold Tsf.Backlogged; infer_instance

instance (q : Tsf) : Decidable q.Idle := by unfold Tsf.Idle; infer_instance

instance (k : Ring) : Decidable k.SleepsLong := by unfold Kfifo.SleepsLong; infer_instance

instance (q : Tsf) (c : TimedCall) : Decidable (q.Awake c) := by
  unfold Tsf.Awake
  split <;> infer_instance

theorem tsfDelay_watchdog {sleepTime : ℤ} {spins : ℕ} (h : tsfDelay K spins sleepTime q = .ok q') :
    q'.watchdog = if 1000000 < sleepTime then some (q.now K + sleepTime) else q.watchdog := by
  unfold tsfDelay at h
  dsimp only at h
  split_ifs at h ⊢ with hlong
  · cases h
    rfl
  · obtain ⟨n, rfl, -⟩ := tsfSpin_ok h
    rfl

/-- A call that finds no packet leaves the queues as they are, and sets the watchdog if and
only if it sleeps long. -/
theorem tsfDequeue_none {spins : ℕ} (h : RingInv q.kfifo)
    (heq : tsfDequeue K spins q = .ok (none, q')) :
    q.Idle ∧ (q'.Backlogged ↔ q.Backlogged) ∧
      (q'.watchdog.isSome ↔ q.watchdog.isSome ∨ q.kfifo.SleepsLong) := by
  have hcase := tsfDequeue_cases heq
  have hidle : ∀ {k}, bypassHead q = none → kfifoDequeue q.kfifo = .ok (none, k) →
      q.Idle ∧ k.stored = q.kfifo.stored := by
    intro k hhead hk
    obtain ⟨hstored, hempty⟩ := h.dequeue_none hk
    exact ⟨⟨hhead, hempty⟩, hstored⟩
  -- the watchdog is set by `tsf_delay` only, for a long sleep
  cases hcase with
  | @nothing k hhead hk howes =>
    obtain ⟨hi, hstored⟩ := hidle hhead hk
    refine ⟨hi, by rw [Tsf.Backlogged, hstored]; rfl, ?_⟩
    have hshort : ¬q.kfifo.SleepsLong := by
      rintro ⟨howes', -⟩
      rcases h.dequeue_owes hk with ⟨-, rfl⟩ | ⟨hno, -⟩
      · exact howes howes'
      · exact hno howes'
    change q.watchdog.isSome ↔ _
    simp [hshort]
  | @finished k w n hhead hk howes hn =>
    obtain ⟨hi, hstored⟩ := hidle hhead hk
    obtain ⟨howes', rfl⟩ : q.kfifo.Owes ∧ k = q.kfifo := by
      rcases h.dequeue_owes hk with hsame | ⟨-, hno⟩
      · exact hsame
      · exact absurd howes hno
    have hkept := h.stored_pay howes
    refine ⟨hi, by rw [Tsf.Backlogged, hkept]; rfl, ?_⟩
    unfold tsfDequeue tsfDequeueRing at heq
    dsimp only at heq
    simp only [hhead, Tsf.tick, hk, kfifoFinish_owes howes] at heq
    split at heq
    · cases heq
    · rename_i q₁ hdelay
      obtain ⟨-, rfl⟩ := Prod.mk.inj (Except.ok.inj heq)
      have hw := tsfDelay_watchdog hdelay
      rw [hw]
      unfold Kfifo.SleepsLong
      split_ifs with hlong
      · simp [howes, show 1000000 < (q.kfifo.node q.kfifo.pread).sleepTime by exact_mod_cast hlong]
      · simp [howes, show ¬1000000 < (q.kfifo.node q.kfifo.pread).sleepTime by exact_mod_cast hlong]

theorem tsfDequeue_some {spins : ℕ} {skb : Skb} (h : RingInv q.kfifo)
    (heq : tsfDequeue K spins q = .ok (some skb, q')) : ¬q.Idle := by
  rintro ⟨hhead, hempty⟩
  cases tsfDequeue_cases heq with
  | bypass hsome =>
    rw [hhead] at hsome
    cases hsome
  | sent _ hk =>
    obtain ⟨hstored, howes⟩ := h.dequeue_some hk
    rcases hempty with hempty | howes'
    · rw [hempty] at hstored
      cases hstored
    · exact howes howes'

theorem timedStep_ring (h : RingInv q.kfifo) {c : TimedCall} {a : Option TsfAnswer}
    (heq : timedStep K q c = .ok (a, q')) : RingInv q'.kfifo := by
  cases c with
  | call c =>
    simp only [timedStep] at heq
    split at heq
    · cases heq
    · rename_i a' q₁ hstep
      obtain ⟨-, rfl⟩ := Prod.mk.inj (Except.ok.inj heq)
      exact tsfStep_ring (fun k c a k' hk he => hk.of_step he) h hstep
  | expire =>
    obtain ⟨-, rfl⟩ := Prod.mk.inj (Except.ok.inj heq)
    exact h

theorem timedStep_dequeue {spins : ℕ} {a : Option TsfAnswer}
    (heq : timedStep K q (.call (.dequeue spins)) = .ok (a, q')) :
    ∃ o, a = some (.packet o) ∧ tsfDequeue K spins q = .ok (o, q') := by
  simp only [timedStep, tsfStep] at heq
  split at heq
  · cases heq
  · rename_i a' q₁ hstep
    obtain ⟨rfl, rfl⟩ := Prod.mk.inj (Except.ok.inj heq)
    split at hstep
    · cases hstep
    · rename_i o q₂ hdequeue
      obtain ⟨rfl, rfl⟩ := Prod.mk.inj (Except.ok.inj hstep)
      exact ⟨o, rfl, hdequeue⟩

theorem RingInv.woken_iff (h : RingInv q.kfifo) {c : TimedCall} {a : Option TsfAnswer}
    (heq : timedStep K q c = .ok (a, q')) :
    (∀ n, c = .call (.dequeue n) → a = some (.packet none) → q'.Woken) ↔ q.Awake c := by
  cases c with
  | expire => simp [Tsf.Awake]
  | call c =>
    cases c with
    | enqueue skb => simp [Tsf.Awake]
    | segment skb => simp [Tsf.Awake]
    | dequeue spins =>
      obtain ⟨o, rfl, hdequeue⟩ := timedStep_dequeue heq
      cases o with
      | none =>
        obtain ⟨hidle, hheld, hset⟩ := tsfDequeue_none h hdequeue
        constructor
        · intro hwoken _ hbacklog
          exact hset.mp (hwoken spins rfl rfl (hheld.mpr hbacklog))
        · intro hawake n _ _ hbacklog
          exact hset.mpr (hawake hidle (hheld.mp hbacklog))
      | some skb =>
        have hbusy := tsfDequeue_some h hdequeue
        refine iff_of_true (fun n _ hnone => ?_) fun hidle => absurd hidle hbusy
        cases hnone

/-- Whenever `tsf_dequeue` returns NULL in a run, a backlog has an expiry to come: this holds
exactly of the runs in which each dequeue that finds no packet while there is a backlog comes
with the watchdog set or sleeps long. -/
theorem woken_iff_awake {opt : Option TsfEnv} (hinit : tsfInit K opt = (0, q₀))
    {h : TimedHistory} (run : Run (timedStep K) q₀ h q) :
    (∀ h' n q', h' ++ [(.call (.dequeue n), some (.packet none))] <+: h →
      Run (timedStep K) q₀ (h' ++ [(.call (.dequeue n), some (.packet none))]) q' → q'.Woken) ↔
      GuardedRun (timedStep K) Tsf.Awake q₀ h q := by
  have hring : RingInv q₀.kfifo := (tsfInit_fresh hinit).ring.inv
  have hsteps := steps_iff_guarded (J := fun q => RingInv q.kfifo) (C := Tsf.Awake)
    (P := fun c a q' => ∀ n, c = .call (.dequeue n) → a = some (.packet none) → q'.Woken) hring
    (fun q c a q' h heq => timedStep_ring h heq) (fun q c a q' h heq => h.woken_iff heq) run
  rw [← hsteps]
  constructor
  · rintro hall h' c a q' hp run' n rfl rfl
    exact hall h' n q' hp run'
  · intro hall h' n q' hp run'
    exact hall h' _ _ q' hp run' n rfl rfl

theorem woken_iff_awake_sample :
    ∃ h q, q.qdisc.skbs = [skbSample 1 1400, skbSample 2 1400, skbSample 3 1100] ∧
      q.watchdog = some 1400 ∧
      ((∀ h' n q', h' ++ [(.call (.dequeue n), some (.packet none))] <+: h →
        Run (timedStep (pairSample 4 1400 1400)) (tsfSample (pairSample 4 1400 1400) 1000000000)
          (h' ++ [(.call (.dequeue n), some (.packet none))]) q' → q'.Woken) ↔
        GuardedRun (timedStep (pairSample 4 1400 1400)) Tsf.Awake
          (tsfSample (pairSample 4 1400 1400) 1000000000) h q) := by
  obtain ⟨h, q, run, hq⟩ := exists_run_of_exec (fun q : Tsf => (q.qdisc.skbs, q.watchdog))
    (b := ([skbSample 1 1400, skbSample 2 1400, skbSample 3 1100], some 1400))
    (show (exec (timedStep (pairSample 4 1400 1400))
      (tsfSample (pairSample 4 1400 1400) 1000000000)
      [.call (.enqueue (skbSample 9 2800)), .call (.enqueue (skbSample 3 1100)),
        .call (.dequeue 0)]).toOption.map _ = _ by decide +kernel)
  obtain ⟨hqdisc, hwatchdog⟩ := Prod.mk.inj hq
  exact ⟨h, q, hqdisc, hwatchdog, woken_iff_awake (tsfSample_init _ _) run⟩

/-- Two segments are parked, and no watchdog will make the kernel call again. -/
theorem parked_segments_stranded :
    tsfInit (pairSample 3 1400 1400) (some (envSample 1000000000)) =
        (0, tsfSample (pairSample 3 1400 1400) 1000000000) ∧
      ∃ q, Run (timedStep (pairSample 3 1400 1400))
          (tsfSample (pairSample 3 1400 1400) 1000000000)
          [(.call (.enqueue (skbSample 9 2800)), some (.verdict .success)),
            (.call (.dequeue 0), some (.packet none))] q ∧ ¬q.Woken := by
  refine ⟨tsfSample_init _ _, ?_⟩
  obtain ⟨r, hr, hq⟩ := exists_ok
    (fun r : TimedHistory × Tsf => (r.1, r.2.qdisc.skbs, r.2.watchdog))
    (b := ([(.call (.enqueue (skbSample 9 2800)), some (.verdict .success)),
      (.call (.dequeue 0), some (.packet none))], [skbSample 1 1400, skbSample 2 1400], none))
    (show (exec (timedStep (pairSample 3 1400 1400))
      (tsfSample (pairSample 3 1400 1400) 1000000000)
      [.call (.enqueue (skbSample 9 2800)), .call (.dequeue 0)]).toOption.map _ = _ by
        decide +kernel)
  obtain ⟨hh, hrest⟩ := Prod.mk.inj hq
  obtain ⟨hqdisc, hwatchdog⟩ := Prod.mk.inj hrest
  refine ⟨r.2, ?_, fun hwoken => ?_⟩
  · have run := run_of_exec hr
    rwa [hh] at run
  · have := hwoken (.inr (by simp [hqdisc]))
    rw [hwatchdog] at this
    cases this

end MeasurementLimiter
