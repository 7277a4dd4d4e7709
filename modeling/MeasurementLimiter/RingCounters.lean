import MeasurementLimiter.RingTime

namespace MeasurementLimiter

open Runs

variable {k k' : Ring} {skb : Skb}

/-- The ring counts the bytes of its nodes, and no more than it may hold. -/
structure Accounted (k : Ring) : Prop extends Timed k where
  slen_eq : k.slen = k.held
  slen_le : k.slen ≤ k.totalLen

theorem EmptyRing.accounted (h : EmptyRing k) (hslen : k.slen = 0) : Accounted k := by
  refine ⟨h.timed, ?_, ?_⟩
  · rw [hslen, h.held]
  · rw [hslen]
    exact Nat.zero_le _

def ExactStore (k k' : Ring) (skb : Skb) : Prop :=
  (k'.node k'.pwrite).leftTime +
      (if (k.node k.pwrite).leftTime < k.rate.l2tNs skb.pktLen
        then k.rate.l2tNs skb.pktLen % unitTime else k.rate.l2tNs skb.pktLen) =
    (k.node k'.pwrite).leftTime

/-- A returned packet is taken from the three counters of packets and bytes. -/
structure ExactTake (k k' : Ring) (skb : Skb) : Prop where
  pkt : (k'.node k'.pread).pkt + 1 = (k.node k'.pread).pkt
  nodeSlen : (k'.node k'.pread).slen + skb.pktLen = (k.node k'.pread).slen
  slen : k'.slen + skb.pktLen = k.slen

theorem Timed.exactStore (h : Timed k) {t cost : ℕ} (l : Landing k skb t cost)
    (hshort : k.rate.l2tNs skb.pktLen < 2 ^ 31) : ExactStore k (k.store skb t cost) skb := by
  have hcost := h.cost_le l hshort
  have hnode : ((k.store skb t cost).node (k.store skb t cost).pwrite).leftTime =
      (k.nth (k.span + t)).leftTime - cost := by
    rw [store_pwrite, store_node, modify_node_self]
    exact land_leftTime _ hcost
  have hsame : (if (k.node k.pwrite).leftTime < k.rate.l2tNs skb.pktLen
      then k.rate.l2tNs skb.pktLen % unitTime else k.rate.l2tNs skb.pktLen) = cost := by
    rcases l.place with ⟨-, hcost', hfit⟩ | ⟨-, hcost', hover⟩
    · rw [if_neg (not_lt.mpr hfit), hcost']
    · rw [if_pos hover, hcost', jumpCost_of_lt hshort]
  rw [ExactStore, hnode, hsame, store_pwrite]
  exact Nat.sub_add_cancel hcost

theorem RingInv.exactTake (h : RingInv k) (hpkt : 0 < (k.nth 0).pkt) :
    ∃ p, (kfifoTake k).1 = some p ∧ ExactTake k (kfifoTake k).2 p := by
  obtain ⟨p, l, -, heq, hle, htotal⟩ := h.take_eq hpkt
  rw [h.nth_zero] at hpkt hle
  rw [heq]
  refine ⟨p, rfl, ?_, ?_, Nat.sub_add_cancel htotal⟩
  · change ((k.modify k.pread fun n => n.taken p l).node k.pread).pkt + 1 = (k.node k.pread).pkt
    rw [modify_node_self]
    exact Nat.sub_add_cancel hpkt
  · change ((k.modify k.pread fun n => n.taken p l).node k.pread).slen + p.pktLen =
      (k.node k.pread).slen
    rw [modify_node_self]
    exact Nat.sub_add_cancel hle

theorem Accounted.store (h : Accounted k) {t cost : ℕ} (l : Landing k skb t cost)
    (hshort : k.rate.l2tNs skb.pktLen < 2 ^ 31) : Accounted (k.store skb t cost) := by
  have hheld := (wrote_store skb cost l.ahead).held
  have heq := h.slen_eq
  have hroom := l.room
  refine ⟨h.toTimed.store l hshort, ?_, ?_⟩
  · simp only [Knode.land] at hheld
    rw [store_slen]
    omega
  · rw [store_slen, store_totalLen]
    omega

theorem Accounted.walk (h : Accounted k) {e : ℕ} (w : ReadWalk k e)
    (hend : e = 0 ∨ 0 < (k.nth e).pkt) : Accounted (k.walk e) :=
  ⟨h.toTimed.walk w hend, h.slen_eq.trans (h.toCircular.held_walk w.le_span).symm, h.slen_le⟩

theorem Accounted.take (h : Accounted k) (hpkt : 0 < (k.nth 0).pkt) :
    Accounted (kfifoTake k).2 := by
  obtain ⟨p, l, -, heq, hle, htotal⟩ := h.take_eq hpkt
  have htimed := h.toTimed.take hpkt
  have w := h.toCircular.wrote_read fun n => n.taken p l
  have hslen := h.slen_eq
  have hmax := h.slen_le
  rw [heq] at htimed ⊢
  refine ⟨htimed, ?_, ?_⟩
  · have hheld := w.held
    simp only [Knode.taken] at hheld
    change k.slen - p.pktLen = (k.modify k.pread fun n => n.taken p l).held
    simp only [Knode.taken]
    omega
  · change k.slen - p.pktLen ≤ k.totalLen
    omega

theorem Accounted.finish (h : Accounted k) : Accounted (kfifoFinish k).2 := by
  have htimed := h.toTimed.finish
  have hzero := h.drained_slen
  unfold kfifoFinish at htimed ⊢
  split_ifs at htimed ⊢ with howes
  · have hheld := (h.toCircular.wrote_read kfifoFinishNode).held
    rw [hzero howes.1] at hheld
    refine ⟨htimed, ?_, h.slen_le⟩
    exact h.slen_eq.trans hheld.symm
  · exact h

theorem Accounted.step (h : Accounted k) {c : RingCall} {a : RingAnswer} (hc : Short k c)
    (heq : ringStep k c = .ok (a, k')) : Accounted k' ∧
      (∀ skb, c = .enqueue skb → a = .verdict .success → ExactStore k k' skb) ∧
      ∀ skb, a = .packet (some skb) → ExactTake k k' skb := by
  cases c with
  | enqueue skb =>
    rcases kfifoEnqueue_cases h.toCircular skb with ⟨he, -⟩ | ⟨t, cost, l, he⟩
    · rw [ringStep_enqueue he] at heq
      obtain ⟨rfl, rfl⟩ := Prod.mk.inj (Except.ok.inj heq)
      exact ⟨h, nofun, nofun⟩
    · rw [ringStep_enqueue he] at heq
      obtain ⟨rfl, rfl⟩ := Prod.mk.inj (Except.ok.inj heq)
      refine ⟨h.store l hc, ?_, nofun⟩
      intro skb' hskb _
      obtain rfl := RingCall.enqueue.inj hskb
      exact h.exactStore l hc
  | dequeue =>
    obtain ⟨e, w, ⟨hpkt, hd⟩ | ⟨hpkt, hd, hstop⟩⟩ := kfifoDequeue_cases h.toCircular
    · have hwalk := h.walk w (.inr hpkt)
      have hpkt' : 0 < ((k.walk e).nth 0).pkt := by rwa [hwalk.nth_zero]
      obtain ⟨p, hp, hexact⟩ := hwalk.exactTake hpkt'
      rw [ringStep_dequeue hd] at heq
      obtain ⟨rfl, rfl⟩ := Prod.mk.inj (Except.ok.inj heq)
      refine ⟨hwalk.take hpkt', nofun, ?_⟩
      intro skb hskb
      rw [hp] at hskb
      obtain rfl := Option.some.inj (RingAnswer.packet.inj hskb)
      exact ⟨hexact.pkt, hexact.nodeSlen, hexact.slen⟩
    · rw [ringStep_dequeue hd] at heq
      obtain ⟨rfl, rfl⟩ := Prod.mk.inj (Except.ok.inj heq)
      exact ⟨h.walk w (.inl (h.stays hpkt hstop)), nofun, nofun⟩
  | finish =>
    rw [ringStep_finish] at heq
    obtain ⟨rfl, rfl⟩ := Prod.mk.inj (Except.ok.inj heq)
    exact ⟨h.finish, nofun, nofun⟩

theorem Timed.sleepTime_le (h : Timed k) {j : ℕ} (hj : j < k.totalTime) :
    (k.nth j).sleepTime ≤ unitTime * k.totalTime := by
  rcases Nat.eq_zero_or_pos j with rfl | hpos
  · obtain ⟨m, -, hle, htime⟩ := h.read_time
    have := Nat.mul_le_mul_left unitTime hle
    omega
  · rcases Nat.eq_zero_or_pos (k.nth j).pkt with hzero | hfull
    · rw [(h.fresh j hpos hj hzero).sleepTime]
      exact Nat.zero_le _
    · have hspan : j ≤ k.span := by
        by_contra hlate
        have := h.ahead_pkt (not_le.mp hlate) hj
        omega
      have hlast := timeTo_succ k (j - 1)
      rw [Nat.sub_add_cancel hpos, Knode.weight_pos hfull, h.position j hspan (.inr hfull)] at hlast
      have := Nat.mul_le_mul_left unitTime hj.le
      omega

/-- No addition wraps either: the 32-bit and 64-bit counters of the nodes hold their values
when no packet is empty, in a ring as `kfifo_init` can make it. -/
theorem Accounted.counters_fit (h : Accounted k) (hlen : k.totalLen < 2 ^ 32)
    (htime : k.totalTime < 2 ^ 32)
    (hfull : ∀ j < k.totalTime, ∀ p ∈ (k.nth j).kunit, 0 < p.pktLen) {j : ℕ}
    (hj : j < k.totalTime) :
    (k.nth j).pkt < 2 ^ 32 ∧ (k.nth j).slen < 2 ^ 32 ∧ (k.nth j).sleepTime < 2 ^ 64 ∧
      (k.nth j).leftTime < 2 ^ 64 ∧ k.slen < 2 ^ 32 := by
  have hmax := h.slen_le
  have hle : (k.nth j).slen ≤ k.slen := by
    rw [h.slen_eq]
    exact Finset.single_le_sum (f := fun j => (k.nth j).slen) (fun _ _ => Nat.zero_le _)
      (Finset.mem_range.mpr hj)
  have hpkt : (k.nth j).pkt ≤ (k.nth j).slen := by
    have hlength := List.length_le_sum_of_one_le ((k.nth j).kunit.map Skb.pktLen) fun n hn => by
      obtain ⟨p, hp, rfl⟩ := List.mem_map.mp hn
      exact hfull j hj p hp
    rwa [List.length_map, ← h.pkt_eq j hj, ← h.nodeSlen_eq j hj] at hlength
  have hsleep := h.sleepTime_le hj
  have hleft := h.left_le j hj
  unfold unitTime at hsleep hleft
  omega

/-- In every run with short packets the counters are those of the packets, and the next
call subtracts exactly. -/
theorem counters_exact (k₀ : Ring) (hslen : k₀.slen = 0) (fifo : ℕ → Knode (List Skb)) {number : ℕ}
    (hnumber : 2 ≤ number) (rate : ℕ) {h : RingHistory}
    (run : GuardedRun ringStep Short (kfifoInit (some fifo) number rate k₀).2 h k) :
    (∀ i < number, (k.node i).pkt = (k.node i).kunit.length ∧
      (k.node i).slen = ((k.node i).kunit.map Skb.pktLen).sum ∧ (k.node i).leftTime ≤ unitTime) ∧
    k.slen = ∑ i ∈ Finset.range number, (k.node i).slen ∧ k.slen ≤ k.totalLen ∧
    ∀ c a k', Short k c → ringStep k c = .ok (a, k') →
      (∀ skb, c = .enqueue skb → a = .verdict .success → ExactStore k k' skb) ∧
      ∀ skb, a = .packet (some skb) → ExactTake k k' skb := by
  have hempty := kfifoInit_empty k₀ fifo hnumber rate
  have hzero : (kfifoInit (some fifo) number rate k₀).2.slen = 0 := by
    simpa [kfifoInit, hnumber.not_gt] using hslen
  obtain ⟨hacc, hnum⟩ : Accounted k ∧ k.totalTime = number := by
    refine run.keeps (I := fun k => Accounted k ∧ k.totalTime = number)
      ⟨hempty.accounted hzero, by simp [kfifoInit, hnumber.not_gt]⟩ ?_
    intro k c a k' hI hc heq
    exact ⟨(hI.1.step hc heq).1, (ringStep_same hI.1.toCircular heq).totalTime.trans hI.2⟩
  subst hnum
  refine ⟨fun i hi => ?_, ?_, hacc.slen_le, fun c a k' hc heq => (hacc.step hc heq).2⟩
  · exact hacc.forall_node (P := fun n => n.pkt = n.kunit.length ∧
      n.slen = (n.kunit.map Skb.pktLen).sum ∧ n.leftTime ≤ unitTime)
      (fun j hj => ⟨hacc.pkt_eq j hj, hacc.nodeSlen_eq j hj, hacc.left_le j hj⟩) hi
  · rw [hacc.slen_eq, Kfifo.held, hacc.sum_nth]

theorem counters_exact_sample :
    let k := ringSample.store (skbSample 1 1500) 2 500000
    k.slen = ∑ i ∈ Finset.range 3, (k.node i).slen ∧ k.slen ≤ k.totalLen :=
  have h := counters_exact _ rfl _ (by decide) _ (.cons ringSample_short ringSample_jump .nil)
  ⟨h.2.1, h.2.2.1⟩

end MeasurementLimiter
