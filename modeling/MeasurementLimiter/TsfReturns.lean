import MeasurementLimiter.TsfLeaks

namespace MeasurementLimiter

open Allocator Runs

variable {K : Kernel} {env : TsfEnv} {err : ℤ} {H : Type} [Allocator H]
  {l l' l₀ : Life H} {opt : Option TsfEnv}

theorem tsfNewChild_skbs {child : Option ℤ} {old sch : Qdisc} {q q' : Tsf}
    (h : tsfNewChild K child old q = .ok (sch, q')) : (sch.skbs : Multiset Skb) ≤ old.skbs := by
  by_cases hpos : 0 < q.tlen
  · obtain ⟨rfl, -⟩ := tsfNewChild_pos hpos h
    exact Multiset.zero_le _
  · rw [tsfNewChild_zero hpos] at h
    obtain ⟨rfl, -⟩ := Prod.mk.inj (Except.ok.inj h)
    exact le_rfl

theorem tsfNewChild_fails {child : Option ℤ} {old : Qdisc} {q : Tsf} {r : ℤ × Tsf}
    (h : tsfNewChild K child old q = .error r) : r.2 = q := by
  unfold tsfNewChild at h
  split_ifs at h
  split at h
  · cases h
    rfl
  · cases h

/-- The inner queues after `tsf_change` are the old ones, or empty. -/
structure Flushed (q q' : Tsf) : Prop where
  trace : q'.trace = q.trace
  qdisc : (q'.qdisc.skbs : Multiset Skb) ≤ q.qdisc.skbs
  testQdisc : (q'.testQdisc.skbs : Multiset Skb) ≤ q.testQdisc.skbs

theorem tsfChange_flushed (K : Kernel) (env : TsfEnv) (q : Tsf) :
    Flushed q (tsfChange K env q).2 := by
  unfold tsfChange
  split
  · exact ⟨rfl, le_rfl, le_rfl⟩
  · rename_i parms time rate64 _
    split
    · rename_i r hr
      rw [tsfNewChild_fails hr]
      exact ⟨rfl, le_rfl, le_rfl⟩
    · rename_i testQdisc q₁ h₁
      have htest := tsfNewChild_skbs h₁
      obtain ⟨n, b, d, p, p', rfl⟩ := tsfNewChild_keeps h₁
      split
      · rename_i r hr
        rw [tsfNewChild_fails hr]
        exact ⟨rfl, le_rfl, htest⟩
      · rename_i qdisc q₂ h₂
        have hqdisc := tsfNewChild_skbs h₂
        obtain ⟨n', b', d', m, m', rfl⟩ := tsfNewChild_keeps h₂
        exact ⟨rfl, hqdisc, htest⟩
  · exact ⟨rfl, le_rfl, le_rfl⟩

theorem lifeChange_stored (o : Owned l.heap l.blocks) (hfits : Fits l (.change env))
    (heq : lifeChange K env l = .ok (err, l')) :
    (l'.q.kfifo.stored : Multiset Skb) + (l'.abandoned : Multiset Skb) =
      (l.q.kfifo.stored : Multiset Skb) + (l.abandoned : Multiset Skb) := by
  rcases lifeChange_cases K env o with hlock | ⟨-, err', heq'⟩ |
    ⟨parms, time, rate64, l₁, hattrs, r, hend⟩
  · rw [hlock] at heq
    cases heq
  · rw [heq'] at heq
    obtain ⟨-, rfl⟩ := Prod.mk.inj (Except.ok.inj heq)
    rfl
  · have hsame : (l₁.q.kfifo.stored : Multiset Skb) + (l₁.abandoned : Multiset Skb) =
        (l.q.kfifo.stored : Multiset Skb) + (l.abandoned : Multiset Skb) := by
      rw [r.abandoned, r.kfifo]
      rfl
    rw [← hsame]
    rcases hend with ⟨-, err', heq'⟩ | ⟨-, heq'⟩
    · rw [heq'] at heq
      obtain ⟨-, rfl⟩ := Prod.mk.inj (Except.ok.inj heq)
      rfl
    · rw [heq'] at heq
      have hl' := congrArg Prod.snd (Except.ok.inj heq)
      dsimp only at hl'
      rw [← hl']
      have htwo : env.mem.isSome → 2 ≤ l₁.q.ttime % 2 ^ 32 := by
        rw [r.ttime]
        exact hfits _ (nodes_some hattrs)
      cases hmem : env.mem with
      | none => rfl
      | some fifo =>
        rw [hmem] at htwo
        have hempty := kfifoInit_empty l₁.q.kfifo fifo (htwo rfl) (rate64 % 2 ^ 32)
        change ((kfifoInit (some fifo) (l₁.q.ttime % 2 ^ 32) (rate64 % 2 ^ 32) l₁.q.kfifo).2.stored :
          Multiset Skb) + ((l₁.abandoned ++ l₁.q.kfifo.stored : List Skb) : Multiset Skb) = _
        rw [hempty.stored, ← Multiset.coe_add, Multiset.coe_nil, zero_add, add_comm]

theorem lifeChange_holding (o : Owned l.heap l.blocks) (hfits : Fits l (.change env))
    (heq : lifeChange K env l = .ok (err, l')) :
    offeredIn l'.q.trace = offeredIn l.q.trace ∧
      l'.q.holding + (l'.abandoned : Multiset Skb) ≤
        l.q.holding + (l.abandoned : Multiset Skb) := by
  have hflushed := tsfChange_flushed K env l.q
  rw [lifeChange_q heq] at hflushed
  have hstored := lifeChange_stored o hfits heq
  refine ⟨by rw [hflushed.trace], ?_⟩
  calc l'.q.holding + (l'.abandoned : Multiset Skb) =
        ((l'.q.kfifo.stored : Multiset Skb) + (l'.abandoned : Multiset Skb)) +
          (l'.q.qdisc.skbs : Multiset Skb) + (l'.q.testQdisc.skbs : Multiset Skb) := by
        rw [Tsf.holding]
        abel
    _ ≤ ((l.q.kfifo.stored : Multiset Skb) + (l.abandoned : Multiset Skb)) +
          (l.q.qdisc.skbs : Multiset Skb) + (l.q.testQdisc.skbs : Multiset Skb) :=
        add_le_add (add_le_add hstored.le hflushed.qdisc) hflushed.testQdisc
    _ = l.q.holding + (l.abandoned : Multiset Skb) := by
        rw [Tsf.holding]
        abel

def returnedOver (h : LifeHistory) : List Skb :=
  h.filterMap fun e => match e.2 with
    | .answer (.packet o) => o
    | .answer (.verdict _) => none
    | .err _ => none
    | .none => none

/-- The packets that were returned since the state `l₁` and those that are still somewhere were
somewhere in `l₁`, or were offered since. -/
structure Passed (l₁ : Life H) (h : LifeHistory) (l : Life H) : Prop where
  owned : Owned l.heap l.blocks
  weighed : Weighed (bytesOf l.abandoned) l.q.kfifo
  le : (returnedOver h : Multiset Skb) + l.q.holding + (l.abandoned : Multiset Skb) +
      offeredIn l₁.q.trace ≤
    l₁.q.holding + (l₁.abandoned : Multiset Skb) + offeredIn l.q.trace

theorem Passed.step {l₁ : Life H} {h : LifeHistory} (w : Passed l₁ h l) {c : LifeCall}
    {a : LifeAnswer} (hfits : Fits l c) (heq : lifeStep K l c = .ok (a, l')) :
    Passed l₁ (h ++ [(c, a)]) l' := by
  have hacc : Accountable (l.pbase.blocks.card + l.lost.card) l := ⟨w.owned, rfl⟩
  refine ⟨((lifeStep_accountable hacc).2 a l' heq).owned,
    lifeStep_weighed w.owned w.weighed hfits heq, ?_⟩
  have hreturned : (returnedOver (h ++ [(c, a)]) : Multiset Skb) =
      (returnedOver h : Multiset Skb) + (returnedOver [(c, a)] : Multiset Skb) := by
    rw [returnedOver, List.filterMap_append]
    rfl
  have hle := w.le
  rw [hreturned]
  cases c with
  | call c =>
    rw [lifeStep] at heq
    split at heq
    · cases heq
    · rename_i a' q' hstep
      obtain ⟨rfl, rfl⟩ := Prod.mk.inj (Except.ok.inj heq)
      have d : Draws l.q 0 [] l.q := ⟨w.weighed.toRingInv, by simp⟩
      have hcall := (d.call hstep).le
      have hone : (returnedOver [(.call c, .answer a')] : Multiset Skb) =
          (returnedIn [(c, a')] : Multiset Skb) := by
        cases a' <;> rfl
      rw [Multiset.coe_nil, zero_add, add_zero] at hcall
      rw [hone]
      -- what the call returned or holds was held before it or offered in it
      refine le_of_add_le_add_right (a := l.q.holding + offeredIn l.q.trace) ?_
      calc _ = ((returnedOver h : Multiset Skb) + l.q.holding + (l.abandoned : Multiset Skb) +
            offeredIn l₁.q.trace) +
            ((returnedIn [(c, a')] : Multiset Skb) + q'.holding + offeredIn l.q.trace) := by abel
        _ ≤ (l₁.q.holding + (l₁.abandoned : Multiset Skb) + offeredIn l.q.trace) +
            (l.q.holding + offeredIn q'.trace) := add_le_add hle hcall
        _ = _ := by abel
  | change env =>
    rw [lifeStep] at heq
    split at heq
    · cases heq
    · rename_i err l₂ hchange
      obtain ⟨rfl, rfl⟩ := Prod.mk.inj (Except.ok.inj heq)
      obtain ⟨hoffered, hheld⟩ := lifeChange_holding w.owned hfits hchange
      have hnone : (returnedOver [(.change env, .err err)] : Multiset Skb) = 0 := rfl
      rw [hnone, add_zero, hoffered]
      refine le_trans ?_ hle
      rw [add_assoc (returnedOver h : Multiset Skb) l₂.q.holding,
        add_assoc (returnedOver h : Multiset Skb) l.q.holding]
      exact add_le_add (add_le_add le_rfl hheld) le_rfl
  | reset =>
    obtain ⟨rfl, rfl⟩ := Prod.mk.inj (Except.ok.inj heq)
    rw [show (returnedOver [(LifeCall.reset, LifeAnswer.none)] : Multiset Skb) = 0 from rfl, add_zero]
    exact hle

/-- From any state in the life of a scheduler whose arrays have two nodes or more: the packets that
are returned, those in its queues and those in the rings left behind were there, or were offered
since, each of them once. -/
theorem returned_once (hinit : lifeInit K opt = .ok (0, l₀)) {h h' : LifeHistory}
    (run : GuardedRun (lifeStep K) Fits l₀ h l) (run' : GuardedRun (lifeStep K) Fits l h' l') :
    (returnedOver h' : Multiset Skb) + l'.q.holding + (l'.abandoned : Multiset Skb) +
        offeredIn l.q.trace ≤
      l.q.holding + (l.abandoned : Multiset Skb) + offeredIn l'.q.trace := by
  have howned := (accountable_of_run hinit (run.mono fun _ _ _ => trivial)).owned
  have hstart : Passed l [] l := by
    refine ⟨howned, weighed_of_run hinit run, ?_⟩
    rw [show (returnedOver [] : Multiset Skb) = 0 from rfl, zero_add]
  exact (run'.invariant (I := fun h' l' => Passed l h' l') hstart
    fun _ _ _ _ _ w hfits heq => w.step hfits heq).le

theorem returned_once_sample :
    ∃ (h : LifeHistory) (l : Life Heap), l.abandoned = [skbSample 2 500] ∧
      (returnedOver h : Multiset Skb) + l.q.holding + (l.abandoned : Multiset Skb) +
          offeredIn lifeSample.q.trace ≤
        lifeSample.q.holding + (lifeSample.abandoned : Multiset Skb) + offeredIn l.q.trace := by
  obtain ⟨h, l, run, hl⟩ := exists_guardedRun_of_exec Life.abandoned (b := [skbSample 2 500])
    (show (execGuarded (lifeStep (pairSample 3 1400 500)) Fits lifeSample
      [.call (.enqueue (skbSample 9 2800)), .change (envSample 1000000000),
        .call (.dequeue 0)]).map _ = _ by decide +kernel)
  exact ⟨h, l, hl, returned_once lifeSample_init .nil run⟩

end MeasurementLimiter
