import MeasurementLimiter.TsfSpec
import MeasurementLimiter.RingInvariant

namespace MeasurementLimiter

open Cyclic Runs

variable {K : Kernel} {skb : Skb} {ret : NetXmit} {o : Option Skb} {k k' : Ring}
  {q₀ q q' : Tsf}

def Kfifo.owed (k : Ring) : ℕ := ∑ i ∈ Finset.range k.totalTime, (k.node i).sleepTime

theorem EmptyRing.owed (h : EmptyRing k) : k.owed = 0 :=
  Finset.sum_eq_zero fun i hi => (h.fresh i (Finset.mem_range.mp hi)).sleepTime

theorem Circular.owed_enqueue (h : Circular k) (heq : kfifoEnqueue (some skb) k = .ok (ret, k')) :
    k'.owed = k.owed + if ret = .success then k.rate.l2tNs skb.pktLen else 0 := by
  rcases kfifoEnqueue_cases h skb with ⟨hd, -⟩ | ⟨t, cost, l, hs⟩
  · rw [hd] at heq
    obtain ⟨rfl, rfl⟩ := Prod.mk.inj (Except.ok.inj heq)
    rfl
  · rw [hs] at heq
    obtain ⟨rfl, rfl⟩ := Prod.mk.inj (Except.ok.inj heq)
    have hsum := (wrote_store skb cost l.ahead).sum Knode.sleepTime
    have hcirc : Circular (k.store skb t cost) := h.store l.ahead
    have hafter := hcirc.sum_nth Knode.sleepTime
    have hbefore := h.sum_nth Knode.sleepTime
    simp only [Knode.land] at hsum
    rw [if_pos rfl, Kfifo.owed, Kfifo.owed]
    omega

theorem kfifoTake_owed (k : Ring) : (kfifoTake k).2.owed = k.owed := by
  have hnode : ∀ (f : Knode (List Skb) → Knode (List Skb)), (∀ n, (f n).sleepTime = n.sleepTime) →
      (k.modify k.pread f).owed = k.owed := by
    intro f hf
    refine Finset.sum_congr rfl fun i _ => ?_
    rw [modify_node]
    split_ifs with hi
    · rw [hi]
      exact hf _
    · rfl
  unfold kfifoTake
  split
  · exact hnode _ fun _ => rfl
  · rename_i skb kunit _
    exact hnode (fun n => { n with
      pkt := usub 32 n.pkt 1, slen := usub 32 n.slen skb.pktLen, kunit := kunit }) fun _ => rfl

theorem kfifoTake_pread (k : Ring) : (kfifoTake k).2.pread = k.pread := by
  unfold kfifoTake
  split <;> rfl

theorem RingInv.owed_dequeue (h : RingInv k) (heq : kfifoDequeue k = .ok (o, k')) :
    k'.owed = k.owed ∧ ∀ j < gap k.totalTime k.pread k'.pread, (k.nth j).sleepTime = 0 := by
  obtain ⟨e, w, hend⟩ := kfifoDequeue_cases h.toCircular
  have hlt := h.span_lt
  have hle := w.le_span
  have hk' : k'.owed = k.owed ∧ k'.pread = k.pos e := by
    rcases hend with ⟨-, hd⟩ | ⟨-, hd, -⟩
    · rw [hd] at heq
      have howed := kfifoTake_owed (k.walk e)
      have hpread := kfifoTake_pread (k.walk e)
      rw [Except.ok.inj heq] at howed hpread
      exact ⟨howed, hpread⟩
    · rw [hd] at heq
      obtain ⟨-, rfl⟩ := Prod.mk.inj (Except.ok.inj heq)
      exact ⟨rfl, rfl⟩
  refine ⟨hk'.1, fun j hj => ?_⟩
  rw [hk'.2, Kfifo.pos, gap_shift h.pread_lt (by omega)] at hj
  rcases Nat.eq_zero_or_pos j with rfl | hpos
  · exact w.paid hj
  · exact h.paid j hpos (by omega) (w.drained j hj)

theorem Circular.owed_finish (h : Circular k) :
    (k.modify k.pread kfifoFinishNode).owed + (k.node k.pread).sleepTime = k.owed := by
  have hsum := (h.wrote_read kfifoFinishNode).sum Knode.sleepTime
  have hcirc := h.modify k.pread (f := kfifoFinishNode) fun _ => rfl
  have hafter := hcirc.sum_nth Knode.sleepTime
  have hbefore := h.sum_nth Knode.sleepTime
  have hfresh := (kfifoFinishNode_fresh (k.nth 0)).sleepTime
  have hread := congrArg Knode.sleepTime h.nth_zero
  rw [Kfifo.owed, Kfifo.owed]
  omega

inductive RingUse
  | enqueue (skb : Skb)
  | dequeue (spins : ℕ)

def ringUse (K : Kernel) (q : Tsf) : RingUse → Except Fault (TsfAnswer × Tsf)
  | .enqueue skb =>
    match tsfRing (q.now K) skb q with
    | .error e => .error e
    | .ok (ret, q) => .ok (.verdict ret, q)
  | .dequeue spins => tsfStep K q (.dequeue spins)

def Event.acceptedTime (rate : PschedRatecfg) : Event → ℕ
  | .stored _ skb => rate.l2tNs skb.pktLen
  | _ => 0

def Event.sleptTime : Event → ℕ
  | .finished _ sleepTime => sleepTime
  | _ => 0

def acceptedTime (rate : PschedRatecfg) (trace : List Event) : ℕ :=
  (trace.map (Event.acceptedTime rate)).sum

def sleptTime (trace : List Event) : ℕ := (trace.map Event.sleptTime).sum

theorem acceptedTime_append (rate : PschedRatecfg) (l l' : List Event) :
    acceptedTime rate (l ++ l') = acceptedTime rate l + acceptedTime rate l' := by
  simp [acceptedTime]

theorem sleptTime_append (l l' : List Event) : sleptTime (l ++ l') = sleptTime l + sleptTime l' := by
  simp [sleptTime]

/-- The time owed by the nodes is the time accepted and not yet slept. -/
structure Owing (q₀ q : Tsf) : Prop where
  ring : RingInv q.kfifo
  rate : q.kfifo.rate = q₀.kfifo.rate
  balance : sleptTime q.trace + q.kfifo.owed = acceptedTime q₀.kfifo.rate q.trace

theorem Owing.enqueue (w : Owing q₀ q) (heq : tsfRing (q.now K) skb q = .ok (ret, q')) :
    Owing q₀ q' := by
  obtain ⟨k, hk, rfl⟩ := tsfRing_ok heq
  obtain ⟨ret', k₁, he, hk₁⟩ := w.ring.enqueue skb
  rw [hk] at he
  obtain ⟨rfl, rfl⟩ := Prod.mk.inj (Except.ok.inj he)
  refine ⟨hk₁, (kfifoEnqueue_same w.ring.toCircular hk).rate.trans w.rate, ?_⟩
  have howed := w.ring.toCircular.owed_enqueue hk
  have hbalance := w.balance
  rw [w.rate] at howed
  by_cases hret : ret = .success
  · have htrace : (q.afterRing (q.now K) skb ret k).trace = q.trace ++ [.stored (q.now K) skb] :=
      if_pos hret
    rw [if_pos hret] at howed
    rw [htrace, sleptTime_append, acceptedTime_append]
    change _ + sleptTime [_] + k.owed = _ + acceptedTime _ [_]
    simp only [sleptTime, acceptedTime, Event.sleptTime, Event.acceptedTime, List.map_cons,
      List.map_nil, List.sum_singleton] at hbalance ⊢
    omega
  · have htrace : (q.afterRing (q.now K) skb ret k).trace = q.trace := if_neg hret
    rw [if_neg hret] at howed
    rw [htrace]
    change _ + k.owed = _
    omega

theorem Owing.dequeue (w : Owing q₀ q) (hcase : DequeueCase K q o q') : Owing q₀ q' := by
  have hbalance := w.balance
  have hring : ∀ {o k}, kfifoDequeue q.kfifo = .ok (o, k) →
      RingInv k ∧ k.rate = q₀.kfifo.rate ∧ k.owed = q.kfifo.owed := by
    intro o k hk
    obtain ⟨o', k₁, he, hk₁⟩ := w.ring.dequeue
    rw [hk] at he
    obtain ⟨rfl, rfl⟩ := Prod.mk.inj (Except.ok.inj he)
    exact ⟨hk₁, (kfifoDequeue_same w.ring.toCircular hk).rate.trans w.rate, (w.ring.owed_dequeue hk).1⟩
  cases hcase with
  | bypass =>
    refine ⟨w.ring, w.rate, ?_⟩
    rw [sleptTime_append, acceptedTime_append]
    exact hbalance
  | sent _ hk =>
    obtain ⟨hk', hrate, howed⟩ := hring hk
    refine ⟨hk', hrate, ?_⟩
    rw [sleptTime_append, acceptedTime_append, howed]
    exact hbalance
  | nothing _ hk =>
    obtain ⟨hk', hrate, howed⟩ := hring hk
    exact ⟨hk', hrate, howed ▸ hbalance⟩
  | @finished k _ _ _ hk howes =>
    obtain ⟨hk', hrate, howed⟩ := hring hk
    refine ⟨hk'.pay howes, hrate, ?_⟩
    have hcleared := hk'.toCircular.owed_finish
    rw [sleptTime_append, acceptedTime_append]
    simp only [sleptTime, acceptedTime, Event.sleptTime, Event.acceptedTime, List.map_cons,
      List.map_nil, List.sum_singleton] at hbalance ⊢
    omega

/-- In every run from an empty ring, the time passed to `tsf_delay` and the time the nodes
owe are the transmission time of the accepted packets, and the next `kfifo_dequeue` passes no
node that owes. -/
theorem slept_exactly_once (hempty : EmptyRing q₀.kfifo) (htrace : q₀.trace = [])
    {h : List (RingUse × TsfAnswer)} (run : Run (ringUse K) q₀ h q) :
    sleptTime q.trace + q.kfifo.owed = acceptedTime q₀.kfifo.rate q.trace ∧
      ∀ o k', kfifoDequeue q.kfifo = .ok (o, k') →
        ∀ j < gap q.kfifo.totalTime q.kfifo.pread k'.pread, (q.kfifo.nth j).sleepTime = 0 := by
  have w : Owing q₀ q := by
    refine run.keeps (I := Owing q₀) ⟨hempty.inv, rfl, ?_⟩ fun q c a q' w _ heq => ?_
    · rw [hempty.owed, htrace]
      rfl
    · cases c with
      | enqueue skb =>
        simp only [ringUse] at heq
        split at heq
        · cases heq
        · rename_i ret q₁ hring
          obtain ⟨-, rfl⟩ := Prod.mk.inj (Except.ok.inj heq)
          exact w.enqueue hring
      | dequeue spins =>
        have hstep : tsfStep K q (.dequeue spins) = .ok (a, q') := heq
        cases tsfStep_cases hstep with
        | segments hc => simp at hc
        | dequeue hcase => exact w.dequeue hcase
  exact ⟨w.balance, fun o k' hk => (w.ring.owed_dequeue hk).2⟩

theorem slept_exactly_once_sample :
    ∃ q : Tsf, q.trace = [.stored 1000 (skbSample 1 500), .sent 1000 (skbSample 1 500),
        .finished 1000 500, .stored 10000 (skbSample 2 300)] ∧ sleptTime q.trace = 500 ∧
      sleptTime q.trace + q.kfifo.owed =
        acceptedTime (tsfSample (kernelSample 3 []) 1000000000).kfifo.rate q.trace := by
  obtain ⟨h, q, run, hq⟩ := exists_run_of_exec Tsf.trace
    (b := [.stored 1000 (skbSample 1 500), .sent 1000 (skbSample 1 500), .finished 1000 500,
      .stored 10000 (skbSample 2 300)])
    (show (exec (ringUse (kernelSample 3 [])) (tsfSample (kernelSample 3 []) 1000000000)
      [.enqueue (skbSample 1 500), .dequeue 0, .dequeue 1,
        .enqueue (skbSample 2 300)]).toOption.map _ = _ by decide +kernel)
  have hfresh := tsfInit_fresh (tsfSample_init (kernelSample 3 []) 1000000000)
  exact ⟨q, hq, by rw [hq]; rfl, (slept_exactly_once hfresh.ring hfresh.trace run).1⟩

end MeasurementLimiter
