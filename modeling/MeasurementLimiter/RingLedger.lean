import MeasurementLimiter.RingTime
import MeasurementLimiter.RingFifo
import MeasurementLimiter.TsfSleep

namespace MeasurementLimiter

open Cyclic

variable {k k' : Ring} {skb : Skb} {b : ℕ}

def timeOf (rate : PschedRatecfg) (l : List Skb) : ℕ := (l.map fun skb => rate.l2tNs skb.pktLen).sum

@[simp] theorem timeOf_nil (rate : PschedRatecfg) : timeOf rate [] = 0 := rfl

@[simp] theorem timeOf_cons (rate : PschedRatecfg) (skb : Skb) (l : List Skb) :
    timeOf rate (skb :: l) = rate.l2tNs skb.pktLen + timeOf rate l := rfl

@[simp] theorem timeOf_append (rate : PschedRatecfg) (l l' : List Skb) :
    timeOf rate (l ++ l') = timeOf rate l + timeOf rate l' := by
  simp [timeOf]

theorem timeOf_flatMap (rate : PschedRatecfg) (f : ℕ → List Skb) (n : ℕ) :
    timeOf rate ((List.range n).flatMap f) = ∑ j ∈ Finset.range n, timeOf rate (f j) := by
  induction n with
  | zero => rfl
  | succ n ih =>
    rw [List.range_succ, List.flatMap_append, List.flatMap_singleton, timeOf_append, ih,
      Finset.sum_range_succ]

/-- The ledger of the ring, where the packets that left the read node since it was last
finished took `b`. -/
structure Ledger (k : Ring) (b : ℕ) : Prop extends RingInv k where
  sleep : ∀ j < k.totalTime,
    (k.nth j).sleepTime = timeOf k.rate (k.nth j).kunit + if j = 0 then b else 0

theorem EmptyRing.ledger (h : EmptyRing k) : Ledger k 0 := by
  refine ⟨h.inv, fun j hj => ?_⟩
  have hfresh : (k.nth j).Fresh := h.fresh _ (h.pos_lt hj.le)
  rw [hfresh.sleepTime, hfresh.kunit, ite_self]
  rfl

namespace Ledger

theorem wrote (h : Ledger k b) {d b' : ℕ} {n : Knode (List Skb)} (w : Wrote k k' d n)
    (hinv : RingInv k') (hrate : k'.rate = k.rate) (hd : d = 0 ∨ b' = b)
    (hn : n.sleepTime = timeOf k.rate n.kunit + if d = 0 then b' else 0) : Ledger k' b' := by
  refine ⟨hinv, fun j hj => ?_⟩
  rw [w.totalTime] at hj
  rw [w.nth j hj, hrate]
  by_cases hjd : j = d
  · rw [if_pos hjd, hjd]
    exact hn
  · rw [if_neg hjd, h.sleep j hj]
    by_cases hzero : j = 0
    · rw [hd.resolve_left (by omega)]
    · rw [if_neg hzero, if_neg hzero]

theorem store (h : Ledger k b) {t cost : ℕ} (l : Landing k skb t cost) :
    Ledger (k.store skb t cost) b := by
  refine h.wrote (wrote_store skb cost l.ahead) (h.toRingInv.store l) rfl (.inr rfl) ?_
  have hsleep := h.sleep _ l.ahead
  change (k.nth (k.span + t)).sleepTime + _ = timeOf k.rate ((k.nth (k.span + t)).kunit ++ [skb]) + _
  rw [timeOf_append, timeOf_cons, timeOf_nil]
  omega

theorem walk (h : Ledger k b) {e : ℕ} (w : ReadWalk k e) : Ledger (k.walk e) b := by
  have hle := w.le_span
  have hlt := h.span_lt
  rcases Nat.eq_zero_or_pos e with rfl | hpos
  · rwa [Kfifo.walk, h.pos_zero]
  · have hburst : b = 0 := by
      have hzero := h.sleep 0 (by omega)
      rw [w.paid hpos, if_pos rfl] at hzero
      omega
    subst hburst
    refine ⟨h.toRingInv.walk w, fun j hj => ?_⟩
    rw [ite_self, Nat.add_zero]
    have hsleep : ∀ i < k.totalTime, (k.nth i).sleepTime = timeOf k.rate (k.nth i).kunit :=
      fun i hi => by simpa using h.sleep i hi
    exact nth_walk_induct h.toCircular hle
      (P := fun _ n => n.sleepTime = timeOf k.rate n.kunit) (fun i _ hi => hsleep i hi)
      (fun i hi => hsleep i (by omega)) hj

theorem take (h : Ledger k b) (hpkt : 0 < (k.nth 0).pkt) :
    ∃ p, (kfifoTake k).1 = some p ∧ Ledger (kfifoTake k).2 (b + k.rate.l2tNs p.pktLen) := by
  obtain ⟨p, l, hl, heq, -, -⟩ := h.take_eq hpkt
  have hinv := h.toRingInv.take hpkt
  have w := h.toCircular.wrote_read fun n => n.taken p l
  rw [heq] at hinv ⊢
  refine ⟨p, rfl, h.wrote ⟨rfl, w.lt, w.nth⟩ hinv rfl (.inl rfl) ?_⟩
  have hsleep := h.sleep 0 w.lt
  rw [hl, timeOf_cons, if_pos rfl] at hsleep
  change (k.nth 0).sleepTime = timeOf k.rate l + _
  rw [if_pos rfl]
  omega

theorem sleep_read (h : Ledger k b) (hpkt : (k.node k.pread).pkt = 0) :
    (k.node k.pread).sleepTime = b := by
  have hpos : 0 < k.totalTime := by have := h.two_le; omega
  have hlen := h.pkt_eq 0 hpos
  have hsleep := h.sleep 0 hpos
  rw [h.nth_zero] at hlen hsleep
  rw [hpkt] at hlen
  rw [List.eq_nil_of_length_eq_zero hlen.symm, timeOf_nil, if_pos rfl, Nat.zero_add] at hsleep
  exact hsleep

theorem pay (h : Ledger k b) (howes : k.Owes) : Ledger (k.modify k.pread kfifoFinishNode) 0 := by
  refine h.wrote (h.toCircular.wrote_read kfifoFinishNode) (h.toRingInv.pay howes) rfl (.inl rfl) ?_
  have hfresh := kfifoFinishNode_fresh (k.nth 0)
  rw [hfresh.sleepTime, hfresh.kunit]
  rfl

theorem enqueue (h : Ledger k b) {ret : NetXmit} (heq : kfifoEnqueue (some skb) k = .ok (ret, k')) :
    Ledger k' b := by
  rcases kfifoEnqueue_cases h.toCircular skb with ⟨hd, -⟩ | ⟨t, cost, l, hs⟩
  · rw [hd] at heq
    obtain ⟨-, rfl⟩ := Prod.mk.inj (Except.ok.inj heq)
    exact h
  · rw [hs] at heq
    obtain ⟨-, rfl⟩ := Prod.mk.inj (Except.ok.inj heq)
    exact h.store l

theorem dequeue_some (h : Ledger k b) (heq : kfifoDequeue k = .ok (some skb, k')) :
    Ledger k' (b + k.rate.l2tNs skb.pktLen) := by
  obtain ⟨e, w, ⟨hpkt, hd⟩ | ⟨-, hd, -⟩⟩ := kfifoDequeue_cases h.toCircular
  · have hwalk := h.walk w
    obtain ⟨p, hp, htake⟩ := hwalk.take (by rwa [hwalk.nth_zero])
    rw [hd] at heq
    rw [Except.ok.inj heq] at hp htake
    obtain rfl := Option.some.inj hp
    exact htake
  · rw [hd] at heq
    cases heq

theorem dequeue_none (h : Ledger k b) (heq : kfifoDequeue k = .ok (none, k')) : Ledger k' b := by
  obtain ⟨e, w, ⟨hpkt, hd⟩ | ⟨-, hd, -⟩⟩ := kfifoDequeue_cases h.toCircular
  · have hwalk := h.walk w
    obtain ⟨p, hp, -⟩ := hwalk.take (by rwa [hwalk.nth_zero])
    rw [hd] at heq
    rw [Except.ok.inj heq] at hp
    cases hp
  · rw [hd] at heq
    obtain ⟨-, rfl⟩ := Prod.mk.inj (Except.ok.inj heq)
    exact h.walk w

theorem owed (h : Ledger k b) : k.owed = timeOf k.rate k.stored + b := by
  have hpos : 0 < k.totalTime := by have := h.two_le; omega
  have hsum := h.toCircular.sum_nth Knode.sleepTime
  have hburst : ∑ j ∈ Finset.range k.totalTime, (if j = 0 then b else 0) = b := by
    rw [Finset.sum_ite_eq' (Finset.range k.totalTime) 0 fun _ => b,
      if_pos (Finset.mem_range.mpr hpos)]
  calc k.owed = ∑ j ∈ Finset.range k.totalTime, (k.nth j).sleepTime := hsum.symm
    _ = ∑ j ∈ Finset.range k.totalTime,
          (timeOf k.rate (k.nth j).kunit + if j = 0 then b else 0) :=
        Finset.sum_congr rfl fun j hj => h.sleep j (Finset.mem_range.mp hj)
    _ = timeOf k.rate k.stored + b := by
        rw [Finset.sum_add_distrib, hburst, h.stored_eq, timeOf_flatMap]

end Ledger

/-- The longest burst of packets that take at most `T` each: the units that such a packet
needs, and at least one. -/
def longestBurst (T : ℕ) : ℕ := unitTime * (T / unitTime + 1)

/-- The time that each node has or had to give is at most that of the longest burst. -/
structure Capped (T : ℕ) (k : Ring) : Prop extends Timed k where
  cap : ∀ i < k.totalTime, (k.node i).sleepTime + (k.node i).leftTime ≤ longestBurst T

variable {T : ℕ}

theorem unitTime_le_longestBurst (T : ℕ) : unitTime ≤ longestBurst T :=
  Nat.le_mul_of_pos_right _ (Nat.succ_pos _)

theorem EmptyRing.capped (h : EmptyRing k) (T : ℕ) : Capped T k := by
  refine ⟨h.timed, fun i hi => ?_⟩
  rw [(h.fresh i hi).sleepTime, (h.fresh i hi).leftTime, Nat.zero_add]
  exact unitTime_le_longestBurst T

namespace Capped

theorem cap_nth (h : Capped T k) {j : ℕ} (hj : j < k.totalTime) :
    (k.nth j).sleepTime + (k.nth j).leftTime ≤ longestBurst T :=
  h.cap _ (h.toCircular.pos_lt hj.le)

theorem wrote (h : Capped T k) {d : ℕ} {n : Knode (List Skb)} (w : Wrote k k' d n)
    (htimed : Timed k') (hn : n.sleepTime + n.leftTime ≤ longestBurst T) : Capped T k' := by
  refine ⟨htimed, fun i hi => ?_⟩
  refine htimed.toCircular.forall_node
    (P := fun n => n.sleepTime + n.leftTime ≤ longestBurst T) (fun j hj => ?_) hi
  rw [w.totalTime] at hj
  rw [w.nth j hj]
  split_ifs
  · exact hn
  · exact h.cap_nth hj

theorem store (h : Capped T k) {t cost : ℕ} (l : Landing k skb t cost) (hT : T < 2 ^ 31)
    (hskb : k.rate.l2tNs skb.pktLen ≤ T) : Capped T (k.store skb t cost) := by
  have hshort := hskb.trans_lt hT
  refine h.wrote (wrote_store skb cost l.ahead) (h.toTimed.store l hshort) ?_
  have htime := h.toTimed.time_landed l hshort
  rw [l.nth_store] at htime
  rw [htime]
  split_ifs with ht
  · exact h.cap_nth h.span_lt
  · rcases l.place with ⟨rfl, -, -⟩ | ⟨hjump, -, -⟩
    · exact absurd rfl ht
    · rw [hjump, jumpLen_of_lt hshort]
      exact Nat.mul_le_mul_left _ (Nat.succ_le_succ (Nat.div_le_div_right hskb))

theorem enqueue (h : Capped T k) (hT : T < 2 ^ 31) {ret : NetXmit}
    (hskb : ret = .success → k.rate.l2tNs skb.pktLen ≤ T)
    (heq : kfifoEnqueue (some skb) k = .ok (ret, k')) : Capped T k' := by
  rcases kfifoEnqueue_cases h.toCircular skb with ⟨hd, -⟩ | ⟨t, cost, l, hs⟩
  · rw [hd] at heq
    obtain ⟨-, rfl⟩ := Prod.mk.inj (Except.ok.inj heq)
    exact h
  · rw [hs] at heq
    obtain ⟨rfl, rfl⟩ := Prod.mk.inj (Except.ok.inj heq)
    exact h.store l hT (hskb rfl)

theorem dequeue (h : Capped T k) {o : Option Skb} (heq : kfifoDequeue k = .ok (o, k')) :
    Capped T k' := by
  have htimed : Timed k' := h.toTimed.step (c := .dequeue) trivial (ringStep_dequeue heq)
  obtain ⟨e, w, ⟨hpkt, hd⟩ | ⟨-, hd, -⟩⟩ := kfifoDequeue_cases h.toCircular
  · have hwalk : Capped T (k.walk e) := ⟨h.toTimed.walk w (.inr hpkt), h.cap⟩
    obtain ⟨p, l, -, htake, -, -⟩ := hwalk.take_eq (by rwa [hwalk.nth_zero])
    have wrote := hwalk.toCircular.wrote_read fun n => n.taken p l
    rw [hd, htake] at heq
    obtain ⟨-, rfl⟩ := Prod.mk.inj (Except.ok.inj heq)
    exact hwalk.wrote ⟨rfl, wrote.lt, wrote.nth⟩ htimed (hwalk.cap_nth wrote.lt)
  · rw [hd] at heq
    obtain ⟨-, rfl⟩ := Prod.mk.inj (Except.ok.inj heq)
    exact ⟨htimed, h.cap⟩

theorem pay (h : Capped T k) (howes : k.Owes) :
    Capped T (k.modify k.pread kfifoFinishNode) := by
  have htimed := h.toTimed.finish
  rw [kfifoFinish_owes howes] at htimed
  refine h.wrote (h.toCircular.wrote_read kfifoFinishNode) htimed ?_
  have hfresh := kfifoFinishNode_fresh (k.nth 0)
  rw [hfresh.sleepTime, hfresh.leftTime, Nat.zero_add]
  exact unitTime_le_longestBurst T

end Capped

theorem Timed.sleep_le_weight (h : Timed k) {j : ℕ} (hpos : 0 < j) (hj : j < k.totalTime) :
    (k.nth j).sleepTime ≤ (k.nth j).weight := by
  rcases Nat.eq_zero_or_pos (k.nth j).pkt with hzero | hfull
  · rw [h.paid j hpos hj hzero]
    exact Nat.zero_le _
  · rw [Knode.weight_pos hfull]
    exact Nat.le_add_right _ _

theorem Capped.owed_le (h : Capped T k) : k.owed ≤ unitTime * (k.totalTime + T / unitTime) := by
  have hlt := h.span_lt
  obtain ⟨n, hn⟩ : ∃ n, k.totalTime = k.span + n + 1 := ⟨k.totalTime - 1 - k.span, by omega⟩
  have hsum := h.toCircular.sum_nth Knode.sleepTime
  have hread := h.cap_nth (j := 0) (by omega)
  have hrest : ∑ j ∈ Finset.range (k.span + n), (k.nth (j + 1)).sleepTime ≤ unitTime * k.span := by
    have hahead : k.timeTo (k.span + n) = k.timeTo k.span :=
      timeTo_add fun j hj hle => h.toRingInv.ahead_pkt hj (by omega)
    calc ∑ j ∈ Finset.range (k.span + n), (k.nth (j + 1)).sleepTime
      _ ≤ k.timeTo (k.span + n) := Finset.sum_le_sum fun j hj => by
          have := Finset.mem_range.mp hj
          exact h.toTimed.sleep_le_weight (Nat.succ_pos j) (by omega)
      _ = unitTime * k.span := hahead.trans h.toTimed.position_span
  rw [hn, Finset.sum_range_succ', ← hn] at hsum
  have hspan : unitTime * k.span ≤ unitTime * (k.span + n) := Nat.mul_le_mul_left _ (by omega)
  rw [Kfifo.owed, ← hsum, hn]
  unfold longestBurst at hread
  have hsplit : unitTime * (k.span + n + 1 + T / unitTime) =
      unitTime * (k.span + n) + unitTime * (T / unitTime + 1) := by ring
  omega

end MeasurementLimiter
