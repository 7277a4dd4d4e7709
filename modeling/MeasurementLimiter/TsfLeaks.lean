import MeasurementLimiter.TsfLife
import MeasurementLimiter.TsfLimits

namespace MeasurementLimiter

open Allocator Runs

variable {K : Kernel} {env : TsfEnv} {mem : Option (ℕ → Knode (List Skb))} {skb : Skb}
  {ret : NetXmit} {k k' : Ring} {a made : ℕ} {err : ℤ} {H : Type} [Allocator H] {l l' l₀ : Life H}
  {opt : Option TsfEnv}

/-- The scheduler accounts for all blocks in use, with `made` rings among them. -/
structure Accountable (made : ℕ) (l : Life H) : Prop where
  owned : Owned l.heap l.blocks
  rings : l.pbase.blocks.card + l.lost.card = made

theorem lifeMakeRing_accountable (h : Accountable made l) (mem : Option (ℕ → Knode (List Skb)))
    (rate64 : ℕ) : Accountable
      (made + if mem.isSome ∧ l.q.ttime % 2 ^ 32 ≠ 0 then 1 else 0) (lifeMakeRing mem rate64 l).2 := by
  cases mem with
  | none =>
    rw [if_neg fun hmem => Bool.false_ne_true hmem.1, add_zero]
    exact ⟨h.owned, h.rings⟩
  | some fifo =>
    have halloc := kmalloc_owned h.owned (l.q.ttime % 2 ^ 32)
    have hcard := kmalloc_card (l.q.ttime % 2 ^ 32) l.heap
    refine ⟨?_, ?_⟩
    · have hblocks : (lifeMakeRing (some fifo) rate64 l).2.blocks =
          (kmalloc (l.q.ttime % 2 ^ 32) l.heap).1.blocks + l.blocks := by
        change qdiscBlocks l.testQdisc + (qdiscBlocks l.qdisc +
          ((kmalloc (l.q.ttime % 2 ^ 32) l.heap).1.blocks + (l.lost + l.pbase.blocks))) = _
        rw [Life.blocks]
        abel
      rw [hblocks]
      exact halloc
    · change (kmalloc (l.q.ttime % 2 ^ 32) l.heap).1.blocks.card +
        (l.lost + l.pbase.blocks).card = _
      rw [hcard, Multiset.card_add, ← h.rings]
      by_cases hzero : l.q.ttime % 2 ^ 32 = 0
      · rw [if_pos hzero, if_neg fun hmem => hmem.2 hzero]
        omega
      · rw [if_neg hzero, if_pos ⟨rfl, hzero⟩]
        omega

theorem lifeChange_accountable (h : Accountable made l) (K : Kernel) (env : TsfEnv) :
    lifeChange K env l = .error .deadlock ∨ ∃ err l', lifeChange K env l = .ok (err, l') ∧
      Accountable (made + env.makesRing.toNat) l' := by
  rcases lifeChange_cases K env h.owned with hlock | ⟨hring, err, heq⟩ |
    ⟨parms, time, rate64, l₁, hattrs, r, ⟨hring, err, heq⟩ | ⟨hchild, heq⟩⟩
  · exact .inl hlock
  · rw [hring]
    exact .inr ⟨err, l, heq, h⟩
  · rw [hring]
    exact .inr ⟨err, l₁, heq, r.owned, by rw [r.pbase, r.lost]; exact h.rings⟩
  · have hkept : Accountable made l₁ := ⟨r.owned, by rw [r.pbase, r.lost]; exact h.rings⟩
    refine .inr ⟨_, _, heq, ?_⟩
    have hring := lifeMakeRing_accountable hkept env.mem rate64
    rw [r.ttime] at hring
    rw [r.tlen] at hchild
    have hfirst : rate64 * (time / 1000) % 2 ^ 64 / 1000 = 0 ∨
        env.child = none ∧ env.childJob = none :=
      (Nat.eq_zero_or_pos _).imp_right hchild
    have hbit : env.makesRing.toNat =
        if env.mem.isSome ∧ (tsfSet K parms time rate64 l.q).ttime % 2 ^ 32 ≠ 0 then 1 else 0 := by
      have hiff := (makesRing_iff hattrs).trans (and_iff_right hfirst)
      split_ifs with hmem
      · rw [hiff.mpr hmem]
        rfl
      · rw [Bool.eq_false_iff.mpr fun h => hmem (hiff.mp h)]
        rfl
    rw [hbit]
    exact hring

def LifeCall.makesRing : LifeCall → Bool
  | .change env => env.makesRing
  | .call _ => false
  | .reset => false

def ringsMade (opt : Option TsfEnv) (h : LifeHistory) : ℕ :=
  (opt.elim false TsfEnv.makesRing).toNat + h.countP fun e => e.1.makesRing

theorem lifeInit_accountable (hinit : lifeInit K opt = .ok (err, l₀)) :
    Accountable (ringsMade opt []) l₀ := by
  have hzero : Accountable 0 (lifeZero K : Life H) := ⟨owned_empty, rfl⟩
  cases opt with
  | none =>
    obtain ⟨-, rfl⟩ := Prod.mk.inj (Except.ok.inj hinit)
    exact hzero
  | some env =>
    rcases lifeChange_accountable hzero K env with hlock | ⟨err', l', heq, h⟩
    · rw [lifeInit, hlock] at hinit
      cases hinit
    · rw [lifeInit, heq] at hinit
      obtain ⟨-, rfl⟩ := Prod.mk.inj (Except.ok.inj hinit)
      rwa [zero_add] at h

theorem lifeStep_accountable (h : Accountable made l) {c : LifeCall} :
    lifeStep K l c ≠ .error .badFree ∧ ∀ a l', lifeStep K l c = .ok (a, l') →
      Accountable (made + c.makesRing.toNat) l' := by
  cases c with
  | call c =>
    rw [lifeStep]
    cases hstep : tsfStep K l.q c with
    | error e =>
      refine ⟨fun h => ?_, fun a l' h => ?_⟩
      · cases h
      · cases h
    | ok r =>
      refine ⟨fun h => ?_, fun a l' heq => ?_⟩
      · cases h
      · obtain ⟨-, rfl⟩ := Prod.mk.inj (Except.ok.inj heq)
        exact ⟨h.owned, h.rings⟩
  | change env =>
    rw [lifeStep]
    rcases lifeChange_accountable h K env with hlock | ⟨err, l₁, heq, h₁⟩
    · rw [hlock]
      refine ⟨fun h => ?_, fun a l' h => ?_⟩
      · cases h
      · cases h
    · rw [heq]
      refine ⟨fun h => ?_, fun a l' heq' => ?_⟩
      · cases h
      · obtain ⟨-, rfl⟩ := Prod.mk.inj (Except.ok.inj heq')
        exact h₁
  | reset =>
    refine ⟨fun h => ?_, fun a l' heq => ?_⟩
    · cases h
    · obtain ⟨-, rfl⟩ := Prod.mk.inj (Except.ok.inj heq)
      exact ⟨h.owned, h.rings⟩

theorem accountable_of_run (hinit : lifeInit K opt = .ok (err, l₀)) {h : LifeHistory}
    (run : Run (lifeStep K) l₀ h l) : Accountable (ringsMade opt h) l := by
  refine run.invariant (I := fun h l => Accountable (ringsMade opt h) l)
    (lifeInit_accountable hinit) fun h l c a l' hl _ heq => ?_
  have hnext := (lifeStep_accountable hl).2 a l' heq
  have hcount : ringsMade opt (h ++ [(c, a)]) = ringsMade opt h + c.makesRing.toNat := by
    rw [ringsMade, ringsMade, List.countP_append, List.countP_singleton, add_assoc]
    cases c.makesRing <;> rfl
  rwa [hcount]

/-- In the life of a scheduler no block is freed that is not in use, whatever fails, and after
`tsf_destroy` all rings but the last are still in use, and both inner queues. -/
theorem destroy_leaks (hinit : lifeInit K opt = .ok (err, l₀)) {h : LifeHistory}
    (run : Run (lifeStep K) l₀ h l) :
    (∀ c, lifeStep K l c ≠ .error .badFree) ∧
      ∃ l', lifeDestroy l = .ok l' ∧ l'.q.watchdog = none ∧
        (inUse l'.heap).card + l.pbase.blocks.card =
          ringsMade opt h + (qdiscBlocks l.testQdisc).card + (qdiscBlocks l.qdisc).card := by
  have hl := accountable_of_run hinit run
  refine ⟨fun c => (lifeStep_accountable hl).1, ?_⟩
  have howned : Owned l.heap (l.pbase.blocks +
      (qdiscBlocks l.testQdisc + (qdiscBlocks l.qdisc + l.lost))) := by
    have hblocks : l.blocks = l.pbase.blocks +
        (qdiscBlocks l.testQdisc + (qdiscBlocks l.qdisc + l.lost)) := by
      rw [Life.blocks]
      abel
    exact hblocks ▸ hl.owned
  obtain ⟨heap, hfree, o⟩ := kfree_owned howned
  refine ⟨{ l with q := { l.q with watchdog := none }, heap := heap }, ?_, rfl, ?_⟩
  · rw [lifeDestroy, hfree]
  · have hlive := o.card_eq
    have hrings := hl.rings
    simp only [Multiset.card_add] at hlive
    change (inUse heap).card + _ = _
    omega

theorem destroy_leaks_sample :
    ∃ l l' : Life Heap, l.heap.next = 6 ∧ lifeDestroy l = .ok l' ∧ (inUse l'.heap).card = 3 := by
  obtain ⟨⟨h, l⟩, hexec, hb⟩ := exists_ok
    (fun r : LifeHistory × Life Heap => (ringsMade (some (envSample 1000000000)) r.1, r.2.heap.next,
      r.2.pbase.blocks.card, (qdiscBlocks r.2.testQdisc).card, (qdiscBlocks r.2.qdisc).card))
    (b := (2, 6, 1, 1, 1))
    (show (exec (lifeStep (pairSample 3 1400 500)) lifeSample
      [.change (envSample 1000000000)]).toOption.map _ = _ by decide +kernel)
  simp only [Prod.mk.injEq] at hb
  obtain ⟨hmade, hnext, hring, htest, hqdisc⟩ := hb
  obtain ⟨-, l', hdestroy, -, hlive⟩ := destroy_leaks lifeSample_init (run_of_exec hexec)
  exact ⟨l, l', hnext, hdestroy, by omega⟩

structure Weighed (a : ℕ) (k : Ring) : Prop extends RingInv k where
  slen_eq : k.slen = bytesOf k.stored + a

theorem EmptyRing.weighed (h : EmptyRing k) : Weighed k.slen k := by
  refine ⟨h.inv, ?_⟩
  rw [h.stored]
  exact (Nat.zero_add _).symm

theorem Weighed.enqueue (h : Weighed a k) (heq : kfifoEnqueue (some skb) k = .ok (ret, k')) :
    Weighed a k' := by
  rcases kfifoEnqueue_cases h.toCircular skb with ⟨he, -⟩ | ⟨t, cost, lands, he⟩
  · rw [he] at heq
    obtain ⟨-, rfl⟩ := Prod.mk.inj (Except.ok.inj heq)
    exact h
  · rw [he] at heq
    obtain ⟨-, rfl⟩ := Prod.mk.inj (Except.ok.inj heq)
    refine ⟨h.toRingInv.store lands, ?_⟩
    have hslen := h.slen_eq
    rw [store_slen, h.stored_store lands, bytesOf_append]
    change k.slen + skb.pktLen = bytesOf k.stored + bytesOf [skb] + a
    have hone : bytesOf [skb] = skb.pktLen := List.sum_singleton
    omega

theorem Weighed.dequeue (h : Weighed a k) {o : Option Skb} (heq : kfifoDequeue k = .ok (o, k')) :
    Weighed a k' := by
  obtain ⟨e, w, ⟨hpkt, hd⟩ | ⟨-, hd, -⟩⟩ := kfifoDequeue_cases h.toCircular
  · have hwalk := h.toRingInv.walk w
    have hpkt' : 0 < ((k.walk e).nth 0).pkt := by rwa [hwalk.nth_zero]
    have hring := hwalk.take hpkt'
    obtain ⟨p', hp', hstored⟩ := hwalk.stored_take hpkt'
    obtain ⟨p, l, -, htake, -, htotal⟩ := hwalk.take_eq hpkt'
    rw [hd] at heq
    rw [htake] at hring hstored hp' heq
    obtain rfl := Option.some.inj hp'
    obtain ⟨-, rfl⟩ := Prod.mk.inj (Except.ok.inj heq)
    refine ⟨hring, ?_⟩
    have hcons : ∀ l : List Skb, bytesOf (p :: l) = p.pktLen + bytesOf l := fun _ => List.sum_cons
    have hslen := h.slen_eq
    rw [← h.stored_walk w, hstored, hcons, add_assoc] at hslen
    exact Nat.sub_eq_of_eq_add' hslen
  · rw [hd] at heq
    obtain ⟨-, rfl⟩ := Prod.mk.inj (Except.ok.inj heq)
    refine ⟨h.toRingInv.walk w, ?_⟩
    rw [h.stored_walk w]
    exact h.slen_eq

theorem weighed_logged (a : ℕ) : Logged fun _ k _ => Weighed a k where
  ring h := h.toRingInv
  later _ h := h
  elsewhere _ h _ := h
  stored h heq := h.enqueue heq
  sent h heq := h.dequeue heq
  nothing h heq := h.dequeue heq
  finished := by
    intro τ k l h howes
    have hring := h.toRingInv.finish
    rw [kfifoFinish_owes howes] at hring
    refine ⟨hring, ?_⟩
    rw [h.toRingInv.stored_pay howes]
    exact h.slen_eq

theorem Weighed.tsfSet (h : Weighed a k) (rate : PschedRatecfg) (mtu : ℕ) :
    Weighed a { k with rate := rate, mtu := mtu } :=
  ⟨⟨⟨h.two_le, h.next_eq, h.pread_lt, h.pwrite_lt⟩, h.pkt_eq, h.nodeSlen_eq, h.ahead, h.paid,
    h.held_le⟩, h.slen_eq⟩

theorem lifeMakeRing_weighed (h : Weighed (bytesOf l.abandoned) l.q.kfifo) (rate64 : ℕ)
    (hfits : mem.isSome → 2 ≤ l.q.ttime % 2 ^ 32) :
    Weighed (bytesOf (lifeMakeRing mem rate64 l).2.abandoned)
      (lifeMakeRing mem rate64 l).2.q.kfifo := by
  cases mem with
  | none => exact h
  | some fifo =>
    have hempty := kfifoInit_empty l.q.kfifo fifo (hfits rfl) (rate64 % 2 ^ 32)
    have hslen : (kfifoInit (some fifo) (l.q.ttime % 2 ^ 32) (rate64 % 2 ^ 32) l.q.kfifo).2.slen =
        bytesOf (l.abandoned ++ l.q.kfifo.stored) := by
      have hnot : ¬l.q.ttime % 2 ^ 32 < 2 := not_lt.mpr (hfits rfl)
      rw [bytesOf_append, Nat.add_comm]
      simp only [kfifoInit, if_neg hnot]
      exact h.slen_eq
    exact hslen ▸ hempty.weighed

def TsfEnv.nodes (env : TsfEnv) : Option ℕ :=
  match env.attrs with
  | .ok ⟨some _, some time, some _⟩ => some (time / 1000 % 2 ^ 32)
  | _ => none

def Fits (_ : Life H) : LifeCall → Prop
  | .change env => ∀ n ∈ env.nodes, env.mem.isSome → 2 ≤ n
  | .call _ => True
  | .reset => True

instance decidableFits (l : Life H) : (c : LifeCall) → Decidable (Fits l c)
  | .change env => inferInstanceAs (Decidable (∀ n ∈ env.nodes, env.mem.isSome → 2 ≤ n))
  | .call _ => .isTrue trivial
  | .reset => .isTrue trivial

theorem nodes_some {parms time rate64 : ℕ}
    (hattrs : env.attrs = .ok ⟨some parms, some time, some rate64⟩) :
    env.nodes = some (time / 1000 % 2 ^ 32) := by
  unfold TsfEnv.nodes
  rw [hattrs]

theorem lifeChange_weighed (o : Owned l.heap l.blocks)
    (h : Weighed (bytesOf l.abandoned) l.q.kfifo) (hfits : Fits l (.change env))
    (heq : lifeChange K env l = .ok (err, l')) : Weighed (bytesOf l'.abandoned) l'.q.kfifo := by
  rcases lifeChange_cases K env o with hlock | ⟨-, err', heq'⟩ |
    ⟨parms, time, rate64, l₁, hattrs, r, hend⟩
  · rw [hlock] at heq
    cases heq
  · rw [heq'] at heq
    obtain ⟨-, rfl⟩ := Prod.mk.inj (Except.ok.inj heq)
    exact h
  · have hw : Weighed (bytesOf l₁.abandoned) l₁.q.kfifo := by
      rw [r.abandoned, r.kfifo]
      exact h.tsfSet _ _
    rcases hend with ⟨-, err', heq'⟩ | ⟨-, heq'⟩
    · rw [heq'] at heq
      obtain ⟨-, rfl⟩ := Prod.mk.inj (Except.ok.inj heq)
      exact hw
    · rw [heq'] at heq
      have hring : Weighed (bytesOf (lifeMakeRing env.mem rate64 l₁).2.abandoned)
          (lifeMakeRing env.mem rate64 l₁).2.q.kfifo :=
        lifeMakeRing_weighed hw rate64 (r.ttime ▸ hfits _ (nodes_some hattrs))
      rwa [Except.ok.inj heq] at hring

theorem lifeInit_abandoned (h : lifeInit K opt = .ok (err, l)) : l.abandoned = [] := by
  cases opt with
  | none =>
    obtain ⟨-, rfl⟩ := Prod.mk.inj (Except.ok.inj h)
    rfl
  | some env =>
    have o : Owned (lifeZero K : Life H).heap (lifeZero K : Life H).blocks := owned_empty
    rcases lifeChange_cases K env o with hlock | ⟨-, err', heq⟩ |
      ⟨parms, time, rate64, l₁, -, r, ⟨-, err', heq⟩ | ⟨-, heq⟩⟩
    · rw [lifeInit, hlock] at h
      cases h
    · rw [lifeInit, heq] at h
      obtain ⟨-, rfl⟩ := Prod.mk.inj (Except.ok.inj h)
      rfl
    · rw [lifeInit, heq] at h
      obtain ⟨-, rfl⟩ := Prod.mk.inj (Except.ok.inj h)
      exact r.abandoned
    · rw [lifeInit, heq] at h
      have hl := congrArg (fun r => r.2.abandoned) (Except.ok.inj h)
      dsimp only at hl
      rw [← hl]
      cases hmem : env.mem with
      | none => exact r.abandoned
      | some fifo =>
        change l₁.abandoned ++ l₁.q.kfifo.stored = []
        rw [r.abandoned, r.kfifo]
        rfl

theorem lifeStep_weighed (o : Owned l.heap l.blocks)
    (h : Weighed (bytesOf l.abandoned) l.q.kfifo) {c : LifeCall} {a : LifeAnswer}
    (hfits : Fits l c) (heq : lifeStep K l c = .ok (a, l')) :
    Weighed (bytesOf l'.abandoned) l'.q.kfifo := by
  cases c with
  | call c =>
    rw [lifeStep] at heq
    split at heq
    · cases heq
    · rename_i hstep
      obtain ⟨-, rfl⟩ := Prod.mk.inj (Except.ok.inj heq)
      exact (weighed_logged _).step h hstep
  | change env =>
    rw [lifeStep] at heq
    split at heq
    · cases heq
    · rename_i hchange
      obtain ⟨-, rfl⟩ := Prod.mk.inj (Except.ok.inj heq)
      exact lifeChange_weighed o h hfits hchange
  | reset =>
    obtain ⟨-, rfl⟩ := Prod.mk.inj (Except.ok.inj heq)
    exact h

theorem weighed_of_run (hinit : lifeInit K opt = .ok (0, l₀)) {h : LifeHistory}
    (run : GuardedRun (lifeStep K) Fits l₀ h l) : Weighed (bytesOf l.abandoned) l.q.kfifo := by
  have hfresh := tsfInit_fresh (lifeInit_q hinit)
  have hstart : Weighed (bytesOf l₀.abandoned) l₀.q.kfifo := by
    have hw := hfresh.ring.weighed
    rwa [hfresh.slen, ← show bytesOf l₀.abandoned = 0 by rw [lifeInit_abandoned hinit]; rfl] at hw
  refine (run.keeps
    (I := fun l => Owned l.heap l.blocks ∧ Weighed (bytesOf l.abandoned) l.q.kfifo)
    ⟨(lifeInit_accountable hinit).owned, hstart⟩ fun l c a l' hl hfits heq => ?_).2
  have hacc : Accountable (l.pbase.blocks.card + l.lost.card) l := ⟨hl.1, rfl⟩
  exact ⟨((lifeStep_accountable hacc).2 a l' heq).owned, lifeStep_weighed hl.1 hl.2 hfits heq⟩

/-- In the life of a scheduler whose arrays have two nodes or more, the packets in the rings left
behind are counted for ever, and so much less fits in the ring. -/
theorem abandoned_counted (hinit : lifeInit K opt = .ok (0, l₀)) {h : LifeHistory}
    (run : GuardedRun (lifeStep K) Fits l₀ h l) :
    l.q.kfifo.slen = bytesOf l.q.kfifo.stored + bytesOf l.abandoned ∧
      ∀ skb, l.q.kfifo.totalLen <
          bytesOf l.q.kfifo.stored + bytesOf l.abandoned + skb.pktLen →
        kfifoEnqueue (some skb) l.q.kfifo = .ok (.drop, l.q.kfifo) := by
  have hslen := (weighed_of_run hinit run).slen_eq
  refine ⟨hslen, fun skb hfull => ?_⟩
  rw [← hslen, Nat.add_comm] at hfull
  unfold kfifoEnqueue
  exact if_pos hfull

theorem abandoned_counted_sample :
    ∃ l : Life Heap, l.abandoned = [skbSample 2 500] ∧ l.q.kfifo.stored = [] ∧
      l.q.kfifo.slen = bytesOf l.q.kfifo.stored + bytesOf l.abandoned := by
  obtain ⟨h, l, run, hl⟩ := exists_guardedRun_of_exec
    (fun l : Life Heap => (l.abandoned, l.q.kfifo.stored)) (b := ([skbSample 2 500], []))
    (show (execGuarded (lifeStep (pairSample 3 1400 500)) Fits lifeSample
      [.call (.enqueue (skbSample 9 2800)), .change (envSample 1000000000)]).map _ = _ by
      decide +kernel)
  obtain ⟨habandoned, hstored⟩ := Prod.mk.inj hl
  exact ⟨l, habandoned, hstored, (abandoned_counted lifeSample_init run).1⟩

end MeasurementLimiter
