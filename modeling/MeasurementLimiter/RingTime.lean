import MeasurementLimiter.RingInvariant

namespace MeasurementLimiter

open Runs

variable {k k' : Ring} {skb : Skb}

def Knode.weight (n : Knode (List Skb)) : ℕ := if 0 < n.pkt then n.sleepTime + n.leftTime else 0

theorem Knode.weight_pos {n : Knode (List Skb)} (h : 0 < n.pkt) :
    n.weight = n.sleepTime + n.leftTime := if_pos h

theorem Knode.weight_zero {n : Knode (List Skb)} (h : n.pkt = 0) : n.weight = 0 :=
  if_neg (by omega)

def Kfifo.timeTo (k : Ring) (j : ℕ) : ℕ := ∑ i ∈ Finset.range j, (k.nth (i + 1)).weight

theorem timeTo_succ (k : Ring) (j : ℕ) : k.timeTo (j + 1) = k.timeTo j + (k.nth (j + 1)).weight :=
  Finset.sum_range_succ _ j

theorem timeTo_congr {j : ℕ} (h : ∀ i < j, (k'.nth (i + 1)).weight = (k.nth (i + 1)).weight) :
    k'.timeTo j = k.timeTo j :=
  Finset.sum_congr rfl fun i hi => h i (Finset.mem_range.mp hi)

theorem timeTo_add {a b : ℕ} (h : ∀ j, a < j → j ≤ a + b → (k.nth j).pkt = 0) :
    k.timeTo (a + b) = k.timeTo a := by
  induction b with
  | zero => rfl
  | succ b ih =>
    rw [← Nat.add_assoc, timeTo_succ, ih fun j hj hle => h j hj (by omega),
      Knode.weight_zero (h (a + b + 1) (by omega) (by omega)), Nat.add_zero]

structure Timed (k : Ring) : Prop extends RingInv k where
  left_le : ∀ j < k.totalTime, (k.nth j).leftTime ≤ unitTime
  write_pkt : 0 < k.span → 0 < (k.nth k.span).pkt
  fresh : ∀ j, 0 < j → j < k.totalTime → (k.nth j).pkt = 0 → (k.nth j).Fresh
  read_time : ∃ m, 0 < m ∧ m ≤ k.totalTime ∧
    (k.nth 0).sleepTime + (k.nth 0).leftTime = unitTime * m
  position : ∀ j ≤ k.span, j = 0 ∨ 0 < (k.nth j).pkt → k.timeTo j = unitTime * j

theorem EmptyRing.timed (h : EmptyRing k) : Timed k := by
  have hspan : k.span = 0 := h.span_eq_zero.mpr h.start
  have hnth : ∀ j < k.totalTime, (k.nth j).Fresh := fun j hj => h.fresh _ (h.pos_lt hj.le)
  have hpos : 0 < k.totalTime := by have := h.two_le; omega
  refine ⟨h.inv, fun j hj => (hnth j hj).leftTime.le, by omega, fun j _ hj _ => hnth j hj, ?_, ?_⟩
  · refine ⟨1, one_pos, hpos, ?_⟩
    rw [(hnth 0 hpos).sleepTime, (hnth 0 hpos).leftTime]
    rfl
  · intro j hj _
    obtain rfl : j = 0 := by omega
    rfl

theorem Timed.fresh_zero (h : Timed k) (hpkt : (k.nth 0).pkt = 0)
    (hsleep : (k.nth 0).sleepTime = 0) : (k.nth 0).Fresh := by
  have hpos : 0 < k.totalTime := by have := h.two_le; omega
  have hlen := h.pkt_eq 0 hpos
  rw [hpkt] at hlen
  have hnil := List.eq_nil_of_length_eq_zero hlen.symm
  obtain ⟨m, hm, -, htime⟩ := h.read_time
  have hleft := h.left_le 0 hpos
  refine ⟨hpkt, ?_, hsleep, ?_, hnil⟩
  · rw [h.nodeSlen_eq 0 hpos, hnil]
    rfl
  · have hle : unitTime * 1 ≤ unitTime * m := Nat.mul_le_mul_left _ hm
    omega

theorem nth_walk_le (h : Circular k) {e j : ℕ} (hj : e + j ≤ k.totalTime) :
    (k.walk e).nth j = k.nth (e + j) := by
  rw [nth_walk h (by omega) (by omega), if_pos hj]

theorem timeTo_walk (h : Circular k) {e j : ℕ} (hj : e + j ≤ k.totalTime) :
    k.timeTo e + (k.walk e).timeTo j = k.timeTo (e + j) := by
  induction j with
  | zero => rfl
  | succ j ih =>
    rw [timeTo_succ, ← Nat.add_assoc e j 1, timeTo_succ, ← ih (by omega), nth_walk_le h hj,
      Nat.add_assoc, Nat.add_assoc e j 1]

theorem Timed.walk (h : Timed k) {e : ℕ} (w : ReadWalk k e) (hend : e = 0 ∨ 0 < (k.nth e).pkt) :
    Timed (k.walk e) := by
  have hlt := h.span_lt
  have hle := w.le_span
  have hspan := h.toCircular.span_walk hle
  have hpassed : ∀ i < e, (k.nth i).Fresh := fun i hi => by
    rcases Nat.eq_zero_or_pos i with rfl | hpos
    · exact h.fresh_zero (w.drained 0 hi) (w.paid hi)
    · exact h.fresh i hpos (by omega) (w.drained i hi)
  have htime : k.timeTo e = unitTime * e := h.position e hle hend
  refine ⟨h.toRingInv.walk w, ?_, ?_, ?_, ?_, ?_⟩
  · intro j hj
    exact nth_walk_induct h.toCircular hle (P := fun _ n => n.leftTime ≤ unitTime)
      (fun i _ hi => h.left_le i hi) (fun i hi => h.left_le i (by omega)) hj
  · intro hpos
    rw [hspan] at hpos
    rw [hspan, nth_walk_le h.toCircular (by omega), Nat.add_sub_cancel' hle]
    exact h.write_pkt (by omega)
  · intro j hj hjlt
    exact nth_walk_induct h.toCircular hle (P := fun j n => 0 < j → n.pkt = 0 → n.Fresh)
      (fun i _ hi hpos => h.fresh i (by omega) hi) (fun i hi _ _ => hpassed i hi) hjlt hj
  · rw [nth_walk_le h.toCircular (by omega), Nat.add_zero]
    rcases Nat.eq_zero_or_pos e with rfl | hpos
    · exact h.read_time
    · have hpkt := hend.resolve_left (by omega)
      have hlast := timeTo_succ k (e - 1)
      have hbefore : k.timeTo (0 + (e - 1)) = k.timeTo 0 :=
        timeTo_add fun j _ hj => w.drained j (by omega)
      rw [Nat.zero_add] at hbefore
      rw [show e - 1 + 1 = e by omega, hbefore, htime, Knode.weight_pos hpkt] at hlast
      exact ⟨e, hpos, by change e ≤ k.totalTime; omega, by simpa [Kfifo.timeTo] using hlast.symm⟩
  · intro j hj hfull
    rw [hspan] at hj
    have hsum := timeTo_walk h.toCircular (show e + j ≤ k.totalTime by omega)
    rw [nth_walk_le h.toCircular (by omega)] at hfull
    have hpos : k.timeTo (e + j) = unitTime * (e + j) := by
      rcases hfull with rfl | hfull
      · exact htime
      · exact h.position _ (by omega) (.inr hfull)
    rw [hpos, htime, Nat.mul_add] at hsum
    omega

theorem Timed.wrote_read (h : Timed k) {n : Knode (List Skb)} (w : Wrote k k' 0 n)
    (hinv : RingInv k') (hspan : k'.span = k.span) (hleft : n.leftTime ≤ unitTime)
    (htime : ∃ m, 0 < m ∧ m ≤ k.totalTime ∧ n.sleepTime + n.leftTime = unitTime * m) :
    Timed k' := by
  have hlt := h.span_lt
  have hN := w.totalTime
  have hother : ∀ j, 0 < j → j < k.totalTime → k'.nth j = k.nth j := fun j hpos hj => by
    rw [w.nth j hj, if_neg (by omega)]
  refine ⟨hinv, ?_, ?_, ?_, ?_, ?_⟩
  · intro j hj
    rw [w.nth j (by omega)]
    split_ifs
    · exact hleft
    · exact h.left_le j (by omega)
  · rw [hspan]
    intro hpos
    rw [hother _ hpos hlt]
    exact h.write_pkt hpos
  · intro j hpos hj
    rw [hother j hpos (by omega)]
    exact h.fresh j hpos (by omega)
  · rw [w.nth 0 w.lt, if_pos rfl, hN]
    exact htime
  · intro j hj hfull
    rw [hspan] at hj
    rw [timeTo_congr fun i hi => congrArg Knode.weight (hother (i + 1) (by omega) (by omega))]
    rcases Nat.eq_zero_or_pos j with rfl | hpos
    · exact h.position 0 hj (.inl rfl)
    · rw [hother j hpos (by omega)] at hfull
      exact h.position j hj hfull

theorem Timed.take (h : Timed k) (hpkt : 0 < (k.nth 0).pkt) : Timed (kfifoTake k).2 := by
  obtain ⟨p, l, -, heq, -, -⟩ := h.take_eq hpkt
  have hinv := h.toRingInv.take hpkt
  have w := h.toCircular.wrote_read fun n => n.taken p l
  rw [heq] at hinv ⊢
  exact h.wrote_read ⟨rfl, w.lt, w.nth⟩ hinv rfl (h.left_le 0 w.lt) h.read_time

theorem Timed.finish (h : Timed k) : Timed (kfifoFinish k).2 := by
  have hinv := h.toRingInv.finish
  unfold kfifoFinish at hinv ⊢
  split_ifs at hinv ⊢ with howes
  · exact h.wrote_read (h.toCircular.wrote_read kfifoFinishNode) hinv rfl le_rfl
      ⟨1, one_pos, by have := h.two_le; omega, rfl⟩
  · exact h

theorem land_leftTime (n : Knode (List Skb)) {m : Unit} {skbTime cost : ℕ} (h : cost ≤ n.leftTime) :
    (n.land m skb skbTime cost).leftTime = n.leftTime - cost :=
  usub_of_le h

theorem RingInv.ahead_pkt (h : RingInv k) {j : ℕ} (hj : k.span < j) (hlt : j < k.totalTime) :
    (k.nth j).pkt = 0 := by
  rw [h.pkt_eq j hlt, h.ahead j hj hlt]
  rfl

theorem Timed.cost_le (h : Timed k) {t cost : ℕ} (l : Landing k skb t cost)
    (hshort : k.rate.l2tNs skb.pktLen < 2 ^ 31) : cost ≤ (k.nth (k.span + t)).leftTime := by
  rcases l.place with ⟨rfl, rfl, hfit⟩ | ⟨ht, hcost, -⟩
  · rwa [Nat.add_zero, h.nth_span]
  · rw [jumpLen_of_lt hshort] at ht
    have hpos : 0 < t := ht ▸ Nat.succ_pos _
    have hpkt : (k.nth (k.span + t)).pkt = 0 := h.ahead_pkt (by omega) l.ahead
    rw [(h.fresh _ (by omega) l.ahead hpkt).leftTime, hcost, jumpCost_of_lt hshort]
    exact (Nat.mod_lt _ unitTime_pos).le

/-- The time of the node where a packet landed: as before on the write node, and one unit
for each link of a jump. -/
theorem Timed.landed (h : Timed k) {t cost : ℕ} (l : Landing k skb t cost)
    (hshort : k.rate.l2tNs skb.pktLen < 2 ^ 31) :
    (k.nth (k.span + t)).sleepTime + k.rate.l2tNs skb.pktLen +
        ((k.nth (k.span + t)).leftTime - cost) =
      if t = 0 then (k.nth k.span).sleepTime + (k.nth k.span).leftTime else unitTime * t := by
  rcases l.place with ⟨rfl, rfl, hfit⟩ | ⟨ht, hcost, -⟩
  · rw [← h.nth_span] at hfit
    rw [if_pos rfl, Nat.add_zero]
    omega
  · rw [jumpLen_of_lt hshort] at ht
    have hpos : 0 < t := ht ▸ Nat.succ_pos _
    have hpkt : (k.nth (k.span + t)).pkt = 0 := h.ahead_pkt (by omega) l.ahead
    have hfresh := h.fresh _ (by omega) l.ahead hpkt
    have hmod : k.rate.l2tNs skb.pktLen % unitTime < unitTime := Nat.mod_lt _ unitTime_pos
    have hsplit := Nat.div_add_mod (k.rate.l2tNs skb.pktLen) unitTime
    rw [if_neg (by omega), hfresh.sleepTime, hfresh.leftTime, hcost, jumpCost_of_lt hshort, ht,
      Nat.mul_add]
    omega

theorem Timed.position_span (h : Timed k) : k.timeTo k.span = unitTime * k.span := by
  apply h.position _ le_rfl
  rcases Nat.eq_zero_or_pos k.span with hz | hpos
  · exact .inl hz
  · exact .inr (h.write_pkt hpos)

theorem Timed.position_before (h : Timed k) (hpos : 0 < k.span) :
    k.timeTo (k.span - 1) + ((k.nth k.span).sleepTime + (k.nth k.span).leftTime) =
      unitTime * k.span := by
  have hlast := timeTo_succ k (k.span - 1)
  rw [Nat.sub_add_cancel hpos, Knode.weight_pos (h.write_pkt hpos)] at hlast
  rw [← hlast]
  exact h.position_span

section Store

variable {t cost : ℕ}

theorem Landing.nth_store (l : Landing k skb t cost) : (k.store skb t cost).nth (k.span + t) =
    (k.nth (k.span + t)).land k.links skb (k.rate.l2tNs skb.pktLen) cost := by
  rw [store_nth l.ahead l.ahead, if_pos rfl]

theorem Landing.nth_other (l : Landing k skb t cost) {j : ℕ} (hj : j < k.totalTime)
    (hne : j ≠ k.span + t) : (k.store skb t cost).nth j = k.nth j := by
  rw [store_nth l.ahead hj, if_neg hne]

theorem Landing.timeTo_before (l : Landing k skb t cost) {j : ℕ} (hj : j < k.span + t) :
    (k.store skb t cost).timeTo j = k.timeTo j := by
  have hlt := l.ahead
  exact timeTo_congr fun i hi => congrArg Knode.weight (l.nth_other (by omega) (by omega))

theorem Timed.time_landed (h : Timed k) (l : Landing k skb t cost)
    (hshort : k.rate.l2tNs skb.pktLen < 2 ^ 31) :
    ((k.store skb t cost).nth (k.span + t)).sleepTime +
        ((k.store skb t cost).nth (k.span + t)).leftTime =
      if t = 0 then (k.nth k.span).sleepTime + (k.nth k.span).leftTime else unitTime * t := by
  rw [← h.landed l hshort, l.nth_store, land_leftTime _ (h.cost_le l hshort)]
  rfl

theorem Timed.position_landed (h : Timed k) (l : Landing k skb t cost)
    (hshort : k.rate.l2tNs skb.pktLen < 2 ^ 31) :
    (k.store skb t cost).timeTo (k.span + t) = unitTime * (k.span + t) := by
  have hlt := l.ahead
  rcases Nat.eq_zero_or_pos (k.span + t) with hz | hpos
  · rw [hz]
    rfl
  · have hpkt : 0 < ((k.store skb t cost).nth (k.span + t)).pkt := by
      rw [l.nth_store]
      exact Nat.succ_pos _
    have hlast := timeTo_succ (k.store skb t cost) (k.span + t - 1)
    rw [Nat.sub_add_cancel hpos, l.timeTo_before (Nat.sub_one_lt_of_lt hpos),
      Knode.weight_pos hpkt, h.time_landed l hshort] at hlast
    rw [hlast]
    by_cases ht : t = 0
    · rw [if_pos ht, ht, Nat.add_zero]
      exact h.position_before (by omega)
    · have hgap : k.timeTo (k.span + (t - 1)) = k.timeTo k.span :=
        timeTo_add fun j hj hle => h.ahead_pkt hj (by omega)
      rw [if_neg ht, show k.span + t - 1 = k.span + (t - 1) by omega, hgap, h.position_span,
        Nat.mul_add]

theorem Timed.store (h : Timed k) (l : Landing k skb t cost)
    (hshort : k.rate.l2tNs skb.pktLen < 2 ^ 31) : Timed (k.store skb t cost) := by
  have hlt := l.ahead
  have hspan : (k.store skb t cost).span = k.span + t := h.toCircular.span_store l.ahead
  refine ⟨h.toRingInv.store l, ?_, ?_, ?_, ?_, ?_⟩
  · intro j hj
    change j < k.totalTime at hj
    by_cases hd : j = k.span + t
    · rw [hd, l.nth_store, land_leftTime _ (h.cost_le l hshort)]
      exact (Nat.sub_le _ _).trans (h.left_le _ hlt)
    · rw [l.nth_other hj hd]
      exact h.left_le j hj
  · intro _
    rw [hspan, l.nth_store]
    exact Nat.succ_pos _
  · intro j hpos hj hzero
    change j < k.totalTime at hj
    by_cases hd : j = k.span + t
    · rw [hd, l.nth_store] at hzero
      exact absurd hzero (Nat.succ_ne_zero _)
    · rw [l.nth_other hj hd] at hzero ⊢
      exact h.fresh j hpos hj hzero
  · obtain ⟨m, hm, hle, htime⟩ := h.read_time
    by_cases hd : 0 = k.span + t
    · have htotal := h.time_landed l hshort
      rw [← hd, if_pos (by omega), show k.span = 0 by omega] at htotal
      exact ⟨m, hm, hle, htotal.trans htime⟩
    · rw [l.nth_other (by omega) hd]
      exact ⟨m, hm, hle, htime⟩
  -- before the place of the packet nothing changed, and at the place the lengths add up
  · intro j hj hfull
    rw [hspan] at hj
    rcases hj.lt_or_eq with hj | rfl
    · rw [l.timeTo_before hj]
      rw [l.nth_other (by omega) (by omega)] at hfull
      refine h.position j ?_ hfull
      by_contra hlate
      have := h.ahead_pkt (not_le.mp hlate) (by omega)
      omega
    · exact h.position_landed l hshort

end Store

def Short (k : Ring) : RingCall → Prop
  | .enqueue skb => k.rate.l2tNs skb.pktLen < 2 ^ 31
  | _ => True

theorem Timed.stays (h : Timed k) {e : ℕ} (hpkt : (k.nth e).pkt = 0)
    (hstop : (e = 0 ∧ k.Owes) ∨ (e = k.span ∧ ¬k.Owes)) : e = 0 := by
  rcases hstop with ⟨hzero, -⟩ | ⟨hspan, -⟩
  · exact hzero
  · by_contra hne
    have := h.write_pkt (by omega)
    rw [← hspan, hpkt] at this
    exact absurd this (lt_irrefl 0)

theorem Timed.step (h : Timed k) {c : RingCall} {a : RingAnswer} (hc : Short k c)
    (heq : ringStep k c = .ok (a, k')) : Timed k' := by
  cases c with
  | enqueue skb =>
    rcases kfifoEnqueue_cases h.toCircular skb with ⟨he, -⟩ | ⟨t, cost, l, he⟩
    · rw [ringStep_enqueue he] at heq
      obtain ⟨-, rfl⟩ := Prod.mk.inj (Except.ok.inj heq)
      exact h
    · rw [ringStep_enqueue he] at heq
      obtain ⟨-, rfl⟩ := Prod.mk.inj (Except.ok.inj heq)
      exact h.store l hc
  | dequeue =>
    obtain ⟨e, w, ⟨hpkt, hd⟩ | ⟨hpkt, hd, hstop⟩⟩ := kfifoDequeue_cases h.toCircular
    · have hwalk := h.walk w (.inr hpkt)
      rw [ringStep_dequeue hd] at heq
      obtain ⟨-, rfl⟩ := Prod.mk.inj (Except.ok.inj heq)
      apply hwalk.take
      rwa [hwalk.nth_zero]
    · rw [ringStep_dequeue hd] at heq
      obtain ⟨-, rfl⟩ := Prod.mk.inj (Except.ok.inj heq)
      exact h.walk w (.inl (h.stays hpkt hstop))
  | finish =>
    rw [ringStep_finish] at heq
    obtain ⟨-, rfl⟩ := Prod.mk.inj (Except.ok.inj heq)
    exact h.finish

def Kfifo.between (k : Ring) (d : ℕ) : List ℕ := (List.range' 1 d).filterMap k.follow

theorem Circular.between_eq (h : Circular k) {d : ℕ} (hd : d < k.totalTime) :
    k.between d = (List.range' 1 d).map k.pos :=
  h.filterMap_follow fun j hj => by have := List.mem_range'_1.mp hj; omega

theorem sum_filter_pkt (k : Ring) (l : List ℕ) :
    ((l.filter fun i => 0 < (k.node i).pkt).map fun i =>
      (k.node i).sleepTime + (k.node i).leftTime).sum = (l.map fun i => (k.node i).weight).sum := by
  induction l with
  | nil => rfl
  | cons i l ih =>
    by_cases hi : 0 < (k.node i).pkt
    · simp [hi, ih, Knode.weight]
    · simp [hi, ih, Knode.weight]

theorem Circular.sum_between (h : Circular k) {d : ℕ} (hd : d < k.totalTime) :
    (((k.between d).filter fun i => 0 < (k.node i).pkt).map fun i =>
      (k.node i).sleepTime + (k.node i).leftTime).sum = k.timeTo d := by
  rw [sum_filter_pkt, h.between_eq hd, List.map_map]
  induction d with
  | zero => rfl
  | succ d ih =>
    rw [List.range'_1_concat, List.map_append, List.sum_append, ih (by omega), timeTo_succ,
      Nat.add_comm 1 d]
    rfl

/-- In every run with short packets the position of the write pointer is the time of the
nodes that hold packets, and no other node but the read node was used. -/
theorem position_eq_time (k₀ : Ring) (fifo : ℕ → Knode (List Skb)) {number : ℕ}
    (hnumber : 2 ≤ number) (rate : ℕ) {h : RingHistory}
    (run : GuardedRun ringStep Short (kfifoInit (some fifo) number rate k₀).2 h k) :
    ∃ d < number, k.follow d = some k.pwrite ∧ ∀ d < number, k.follow d = some k.pwrite →
      (((k.between d).filter fun i => 0 < (k.node i).pkt).map fun i =>
        (k.node i).sleepTime + (k.node i).leftTime).sum = unitTime * d ∧
      ∀ i < number, i = k.pread ∨ (i ∈ k.between d ∧ 0 < (k.node i).pkt) ∨ (k.node i).Fresh := by
  have hempty := kfifoInit_empty k₀ fifo hnumber rate
  obtain ⟨htimed, hnum⟩ : Timed k ∧ k.totalTime = number := by
    refine run.keeps (I := fun k => Timed k ∧ k.totalTime = number)
      ⟨hempty.timed, by simp [kfifoInit, hnumber.not_gt]⟩ ?_
    intro k c a k' hI hc heq
    exact ⟨hI.1.step hc heq, (ringStep_same hI.1.toCircular heq).totalTime.trans hI.2⟩
  have hcirc := htimed.toCircular
  subst hnum
  refine ⟨k.span, hcirc.span_lt, ?_, fun d hd hw => ⟨?_, fun i hi => ?_⟩⟩
  · rw [hcirc.follow_eq hcirc.span_lt.le, hcirc.pos_span]
  · rw [hcirc.sum_between hd, hcirc.eq_span hd hw]
    exact htimed.position_span
  · obtain ⟨j, hj, rfl⟩ := Cyclic.exists_shift hcirc.pread_lt hi
    rcases Nat.eq_zero_or_pos j with rfl | hpos
    · exact .inl hcirc.pos_zero
    · right
      -- away from the read node an empty node is fresh, and one with packets is not ahead
      rcases Nat.eq_zero_or_pos (k.nth j).pkt with hzero | hfull
      · exact .inr (htimed.fresh j hpos hj hzero)
      · refine .inl ⟨?_, hfull⟩
        have hle : j ≤ d := by
          rw [hcirc.eq_span hd hw]
          by_contra hlate
          have := htimed.ahead_pkt (not_le.mp hlate) hj
          omega
        rw [hcirc.between_eq hd]
        exact List.mem_map.mpr ⟨j, List.mem_range'_1.mpr ⟨hpos, by omega⟩, rfl⟩

def ringSample : Ring :=
  (kfifoInit (some fun _ => ⟨0, 0, 0, 0, none, none, []⟩) 3 1000000
    ⟨(), false, fun _ => ⟨0, 0, 0, 0, none, none, []⟩, 0, 0, 0, 0, 0, 1500,
      ⟨1000000, fun n => 1000 * n⟩⟩).2

theorem ringSample_jump : ringStep ringSample (.enqueue (skbSample 1 1500)) =
    .ok (.verdict .success, ringSample.store (skbSample 1 1500) 2 500000) := by
  have hcirc : Circular ringSample := (kfifoInit_empty _ _ (by decide) _).toCircular
  have l : Landing ringSample (skbSample 1 1500) 2 500000 :=
    ⟨by decide, by decide, by decide, .inr ⟨(jumpLen_of_lt (show 1500000 < 2 ^ 31 by decide)).symm,
      (jumpCost_of_lt (show 1500000 < 2 ^ 31 by decide)).symm, by decide⟩⟩
  exact ringStep_enqueue (l.enqueue_eq hcirc)

theorem ringSample_short : Short ringSample (.enqueue (skbSample 1 1500)) :=
  show 1500000 < 2 ^ 31 by decide

theorem position_eq_time_sample :
    let k := ringSample.store (skbSample 1 1500) 2 500000
    ∃ d < 3, k.follow d = some k.pwrite ∧ ∀ d < 3, k.follow d = some k.pwrite →
      (((k.between d).filter fun i => 0 < (k.node i).pkt).map fun i =>
        (k.node i).sleepTime + (k.node i).leftTime).sum = unitTime * d ∧
      ∀ i < 3, i = k.pread ∨ (i ∈ k.between d ∧ 0 < (k.node i).pkt) ∨ (k.node i).Fresh :=
  position_eq_time _ _ (by decide) _ (.cons ringSample_short ringSample_jump .nil)

end MeasurementLimiter
