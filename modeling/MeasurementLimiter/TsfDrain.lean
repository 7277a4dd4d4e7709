import MeasurementLimiter.TsfSleep
import MeasurementLimiter.TsfSafety
import MeasurementLimiter.RingFifo

namespace MeasurementLimiter

open Runs

variable {K : Kernel} {o : Option Skb} {q₀ q q' : Tsf}

def returnedIn (h : TsfHistory) : List Skb :=
  h.filterMap fun e => match e.2 with
    | .packet o => o
    | .verdict _ => none

theorem returnedIn_dequeue (h : TsfHistory) (spins : ℕ) (o : Option Skb) :
    returnedIn (h ++ [(.dequeue spins, .packet o)]) = returnedIn h ++ o.toList := by
  cases o <;> simp [returnedIn]

/-- Finitely many dequeues, and no other call, return all packets of the ring and of the inner
queue and leave both empty. -/
def Drains (K : Kernel) (q : Tsf) : Prop :=
  ∃ h q', GuardedRun (tsfStep K) (fun _ c => ∃ n, c = .dequeue n) q h q' ∧
    (q.kfifo.stored ++ q.qdisc.skbs).Sublist (returnedIn h) ∧
    q'.kfifo.stored = [] ∧ q'.qdisc.skbs = []

theorem tsfDequeue_returns (h : RingInv q.kfifo) (hclock : ∀ t, ∃ n, t ≤ K.ktime n) :
    ∃ spins o q', tsfDequeue K spins q = .ok (o, q') := by
  unfold tsfDequeue
  dsimp only
  cases bypassHead q with
  | some skb => exact ⟨0, _, _, rfl⟩
  | none =>
    obtain ⟨o, k, hk, -⟩ := h.dequeue
    have hk' : kfifoDequeue q.tick.kfifo = .ok (o, k) := hk
    dsimp only
    unfold tsfDequeueRing
    rw [hk']
    cases o with
    | some skb => exact ⟨0, _, _, rfl⟩
    | none =>
      dsimp only
      by_cases howes : k.Owes
      · obtain ⟨spins, q', hq'⟩ := tsfDelay_returns (k.node k.pread).sleepTime hclock
          { q.tick with
            kfifo := k.modify k.pread kfifoFinishNode
            trace := q.tick.trace ++ [.finished (q.now K) (k.node k.pread).sleepTime] }
        refine ⟨spins, none, q', ?_⟩
        rw [kfifoFinish_owes howes]
        simp only [hq']
      · refine ⟨0, none, { q.tick with kfifo := k }, ?_⟩
        rw [kfifoFinish_free howes]

/-- The packets of the bypass queue and of the ring that are still to be returned, and the
time that is still to be slept. -/
def Tsf.pending (q : Tsf) : ℕ := q.testQdisc.skbs.length + q.kfifo.stored.length + q.kfifo.owed

/-- A dequeue takes a packet of the bypass queue or the head of the ring, or pays the debt of
a node, until the ring is empty. -/
theorem DequeueCase.lowers (h : RingInv q.kfifo) (hcase : DequeueCase K q o q')
    (hne : q.kfifo.stored ≠ []) :
    RingInv q'.kfifo ∧ q'.qdisc = q.qdisc ∧ q'.pending < q.pending ∧
      q.kfifo.stored.Sublist (o.toList ++ q'.kfifo.stored) := by
  unfold Tsf.pending
  cases hcase with
  | @bypass skb hhead =>
    have hpos : 0 < q.testQdisc.skbs.length := List.length_pos_of_mem (bypassHead_mem hhead)
    refine ⟨h, rfl, ?_, List.sublist_append_right _ _⟩
    change q.testQdisc.skbs.tail.length + _ + q.kfifo.owed < _
    rw [List.length_tail]
    change _ + q.kfifo.stored.length + _ < _
    omega
  | @sent skb k _ hk =>
    have howed : k.owed = q.kfifo.owed := (h.owed_dequeue hk).1
    have hstored := (h.dequeue_some hk).1
    refine ⟨h.of_step (ringStep_dequeue hk), rfl, ?_, by rw [hstored]; exact .refl _⟩
    rw [hstored, List.length_cons]
    change q.testQdisc.skbs.length + k.stored.length + k.owed < _
    omega
  -- a ring with packets gives NULL only if it owes time, and then it is finished
  | @nothing k _ hk howes =>
    rcases (h.dequeue_none hk).2 with hempty | howes'
    · exact absurd hempty hne
    · rcases h.dequeue_owes hk with ⟨-, rfl⟩ | ⟨hno, -⟩
      · exact absurd howes' howes
      · exact absurd howes' hno
  | @finished k w n _ hk howes =>
    have howed : k.owed = q.kfifo.owed := (h.owed_dequeue hk).1
    have hring := h.of_step (ringStep_dequeue hk)
    have hstored := (h.dequeue_none hk).1
    have hkept := hring.stored_pay howes
    have hpaid : (k.modify k.pread kfifoFinishNode).owed + (k.node k.pread).sleepTime = k.owed :=
      hring.toCircular.owed_finish
    have hpos : 0 < (k.node k.pread).sleepTime := howes.2
    refine ⟨hring.pay howes, rfl, ?_, ?_⟩
    · change q.testQdisc.skbs.length + (k.modify k.pread kfifoFinishNode).stored.length +
        (k.modify k.pread kfifoFinishNode).owed < _
      rw [hkept, hstored]
      omega
    · change List.Sublist _ (k.modify k.pread kfifoFinishNode).stored
      rw [hkept, hstored]

theorem RingInv.drains_ring (h : RingInv q.kfifo) (hclock : ∀ t, ∃ n, t ≤ K.ktime n) :
    ∃ l q', GuardedRun (tsfStep K) (fun _ c => ∃ n, c = .dequeue n) q l q' ∧
      q.kfifo.stored.Sublist (returnedIn l) ∧ q'.kfifo.stored = [] ∧ q'.qdisc = q.qdisc := by
  have hstart : RingInv q.kfifo ∧ q.qdisc = q.qdisc ∧
      q.kfifo.stored.Sublist (returnedIn [] ++ q.kfifo.stored) := ⟨h, rfl, .refl _⟩
  have hrun : ∃ l q', GuardedRun (tsfStep K) (fun _ c => ∃ n, c = .dequeue n) q l q' ∧
      (RingInv q'.kfifo ∧ q'.qdisc = q.qdisc ∧
        q.kfifo.stored.Sublist (returnedIn l ++ q'.kfifo.stored)) ∧ q'.kfifo.stored = [] := by
    refine exists_run_to Tsf.pending hstart fun l q₁ hI hne => ?_
    obtain ⟨hring, hqdisc, hreturned⟩ := hI
    obtain ⟨spins, o, q₂, heq⟩ := tsfDequeue_returns hring hclock
    obtain ⟨hring', hqdisc', hlt, hkept⟩ := (tsfDequeue_cases heq).lowers hring hne
    refine ⟨.dequeue spins, .packet o, q₂, ⟨spins, rfl⟩, ?_, ⟨hring', hqdisc'.trans hqdisc, ?_⟩, hlt⟩
    · simp only [tsfStep, heq]
    · rw [returnedIn_dequeue, List.append_assoc]
      exact hreturned.trans (hkept.append_left _)
  obtain ⟨l, q', run, ⟨-, hqdisc, hreturned⟩, hempty⟩ := hrun
  rw [hempty, List.append_nil] at hreturned
  exact ⟨l, q', run, hreturned, hempty, hqdisc⟩

theorem qdisc_of_dequeues {l : TsfHistory}
    (run : GuardedRun (tsfStep K) (fun _ c => ∃ n, c = .dequeue n) q l q') : q'.qdisc = q.qdisc := by
  refine run.keeps (I := fun q' => q'.qdisc = q.qdisc) rfl ?_
  rintro q₁ _ a q₂ hq ⟨n, rfl⟩ heq
  cases tsfStep_cases heq with
  | segments hc => simp at hc
  | dequeue hcase => cases hcase <;> exact hq

theorem Drains.unparked (h : Drains K q) : q.qdisc.skbs = [] := by
  obtain ⟨l, q', run, -, -, hempty⟩ := h
  rwa [qdisc_of_dequeues run] at hempty

/-- With a clock that goes on, dequeues can empty the ring and the inner queue of a reached
state if and only if the inner queue is empty. -/
theorem drains_iff_unparked {opt : Option TsfEnv} (hinit : tsfInit K opt = (0, q₀))
    {h : TsfHistory} (run : Run (tsfStep K) q₀ h q) (hclock : ∀ t, ∃ n, t ≤ K.ktime n) :
    Drains K q ↔ q.qdisc.skbs = [] := by
  have w : Working K q := (tsfInit_fresh hinit).run run
  refine ⟨Drains.unparked, fun hparked => ?_⟩
  obtain ⟨l, q', run', hreturned, hempty, hqdisc⟩ := w.ring.drains_ring hclock
  refine ⟨l, q', run', ?_, hempty, ?_⟩
  · rwa [hparked, List.append_nil]
  · rw [hqdisc, hparked]

/-- A kernel whose clock ticks every 100 ns, where every large packet is segmented into
`segs`. -/
def steadySample (segs : List Skb) : Kernel :=
  { kernelSample 0 segs with
    ktime := fun n => 100 * (n + 1)
    ktime_mono := by
      intro a b hab
      dsimp only
      omega
    ktime_nonneg := by norm_num }

theorem steadySample_clock (segs : List Skb) (t : ℤ) : ∃ n, t ≤ (steadySample segs).ktime n := by
  refine ⟨t.toNat, ?_⟩
  change t ≤ 100 * ((t.toNat : ℤ) + 1)
  omega

theorem drains_iff_unparked_sample :
    ∃ q : Tsf, q.kfifo.stored = [skbSample 1 60] ∧ q.qdisc.skbs = [] ∧
      (Drains (steadySample [skbSample 1 60]) q ↔ q.qdisc.skbs = []) := by
  obtain ⟨h, q, run, hq⟩ := exists_run_of_exec (fun q : Tsf => (q.kfifo.stored, q.qdisc.skbs))
    (b := ([skbSample 1 60], []))
    (show (exec (tsfStep (steadySample [skbSample 1 60]))
      (tsfSample (steadySample [skbSample 1 60]) 1000000000)
      [.enqueue (skbSample 9 2800)]).toOption.map _ = _ by decide +kernel)
  obtain ⟨hstored, hparked⟩ := Prod.mk.inj hq
  exact ⟨q, hstored, hparked, drains_iff_unparked (tsfSample_init _ _) run (steadySample_clock _)⟩

/-- No dequeue ever returns a parked segment, however small it is. -/
theorem parked_segment_stays :
    tsfInit (steadySample [skbSample 1 1400]) (some (envSample 1000000000)) =
        (0, tsfSample (steadySample [skbSample 1 1400]) 1000000000) ∧
      ∃ h q, Run (tsfStep (steadySample [skbSample 1 1400]))
          (tsfSample (steadySample [skbSample 1 1400]) 1000000000) h q ∧
        (∀ t, ∃ n, t ≤ (steadySample [skbSample 1 1400]).ktime n) ∧
        (∀ skb ∈ q.qdisc.skbs, (q.rate.l2tNs skb.pktLen : ℤ) ≤ q.buffer) ∧
        ¬Drains (steadySample [skbSample 1 1400]) q := by
  obtain ⟨h, q, run, hq⟩ := exists_run_of_exec
    (fun q : Tsf => (q.qdisc.skbs, q.qdisc.skbs.map fun skb =>
      decide ((q.rate.l2tNs skb.pktLen : ℤ) ≤ q.buffer)))
    (b := ([skbSample 1 1400], [true]))
    (show (exec (tsfStep (steadySample [skbSample 1 1400]))
      (tsfSample (steadySample [skbSample 1 1400]) 1000000000)
      [.enqueue (skbSample 9 2800)]).toOption.map _ = _ by decide +kernel)
  obtain ⟨hparked, hsmall⟩ := Prod.mk.inj hq
  refine ⟨tsfSample_init _ _, h, q, run, steadySample_clock _, fun skb hskb => ?_, fun hdrains => ?_⟩
  · have hmem := List.mem_map_of_mem (f := fun skb : Skb =>
      decide ((q.rate.l2tNs skb.pktLen : ℤ) ≤ q.buffer)) hskb
    rw [hsmall] at hmem
    simpa using hmem
  · have := hdrains.unparked
    rw [hparked] at this
    cases this

end MeasurementLimiter
