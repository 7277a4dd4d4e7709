import MeasurementLimiter.RingSpec

namespace MeasurementLimiter

open Cyclic

abbrev Ring := Kfifo Unit (List Skb)

section Init

variable {M U : Type} [Kunit M U] {k : Kfifo M U}

/-- A node as `kfifo_init` and `kfifo_finish_node` leave it. -/
structure Knode.Fresh (n : Knode U) : Prop where
  pkt : n.pkt = 0
  slen : n.slen = 0
  sleepTime : n.sleepTime = 0
  leftTime : n.leftTime = unitTime
  kunit : n.kunit = Kunit.init

theorem kfifoFinishNode_fresh (n : Knode U) : (kfifoFinishNode n).Fresh := ⟨rfl, rfl, rfl, rfl, rfl⟩

structure EmptyRing (k : Kfifo M U) : Prop extends Circular k where
  start : k.pread = k.pwrite
  fresh : ∀ i < k.totalTime, (k.node i).Fresh

omit [Kunit M U] in
theorem foldl_update {β : Type} (f : ℕ → β → β) {l : List ℕ} (hl : l.Nodup) (g : ℕ → β) (j : ℕ) :
    (l.foldl (fun g i => Function.update g i (f i (g i))) g) j =
      if j ∈ l then f j (g j) else g j := by
  induction l generalizing g with
  | nil => simp
  | cons i l ih =>
    obtain ⟨hi, hl⟩ := List.nodup_cons.mp hl
    rw [List.foldl_cons, ih hl]
    by_cases hj : j = i
    · simp [hj, hi]
    · simp [hj]

theorem kfifoInitNodes_apply (number : ℕ) (fifo : ℕ → Knode U) {i : ℕ} (hi : i < number) :
    kfifoInitNodes number fifo i = { fifo i with
      pkt := 0, slen := 0, sleepTime := 0, leftTime := unitTime, kunit := Kunit.init } := by
  have := foldl_update (fun _ (n : Knode U) => { n with
    pkt := 0, slen := 0, sleepTime := 0, leftTime := unitTime, kunit := Kunit.init })
    (List.nodup_range (n := number)) fifo i
  rwa [if_pos (List.mem_range.mpr hi)] at this

theorem kfifoInitLinks_apply {number : ℕ} (hnumber : 2 ≤ number) (fifo : ℕ → Knode U) {i : ℕ}
    (hi : i < number) :
    kfifoInitLinks number fifo i =
      { fifo i with
        prev := some (if i = 0 then number - 1 else i - 1), next := some (shift number i 1) } := by
  have hloop := foldl_update
    (fun i (n : Knode U) => { n with prev := some (i - 1), next := some (i + 1) })
    (List.nodup_range' (s := 1) (n := number - 2)) fifo
  unfold kfifoInitLinks shift
  simp only [Function.update_apply]
  by_cases hlast : i = number - 1
  · subst hlast
    have hwrap : (if number - 1 + 1 < number then number - 1 + 1 else number - 1 + 1 - number) = 0 := by
      split_ifs <;> omega
    rw [if_pos rfl, if_neg (by omega), hloop, if_neg (by simp; omega), hwrap, if_neg (by omega)]
    rfl
  · by_cases hzero : i = 0
    · subst hzero
      rw [if_neg hlast, if_pos rfl, hloop, if_neg (by simp), if_pos rfl, if_pos (by omega)]
    · rw [if_neg hlast, if_neg hzero, hloop, if_pos (by simp; omega), if_neg hzero,
        if_pos (by omega)]

theorem kfifoInit_empty (k : Kfifo M U) (fifo : ℕ → Knode U) {number : ℕ} (hnumber : 2 ≤ number)
    (rate : ℕ) : EmptyRing (kfifoInit (some fifo) number rate k).2 := by
  have hlt : ¬number < 2 := not_lt.mpr hnumber
  simp only [kfifoInit, if_neg hlt]
  refine ⟨⟨hnumber, fun i hi => ?_, by change 0 < number; omega, by change 0 < number; omega⟩,
    rfl, fun i hi => ?_⟩
  · exact congrArg Knode.next (kfifoInitLinks_apply hnumber (kfifoInitNodes number fifo) hi)
  · change (kfifoInitLinks number (kfifoInitNodes number fifo) i).Fresh
    rw [kfifoInitLinks_apply hnumber (kfifoInitNodes number fifo) hi,
      kfifoInitNodes_apply number fifo hi]
    exact ⟨rfl, rfl, rfl, rfl, rfl⟩

end Init

variable {k : Ring} {skb : Skb}

theorem Circular.sum_nth {A : Type} [AddCommMonoid A] (h : Circular k)
    (f : Knode (List Skb) → A) :
    ∑ j ∈ Finset.range k.totalTime, f (k.nth j) = ∑ i ∈ Finset.range k.totalTime, f (k.node i) :=
  sum_shift h.pread_lt fun i => f (k.node i)

def Kfifo.held (k : Ring) : ℕ := ∑ j ∈ Finset.range k.totalTime, (k.nth j).slen

/-- The invariant of the ring.  The byte count of the ring may exceed that of the nodes,
by what it was when `kfifo_init` was called. -/
structure RingInv (k : Ring) : Prop extends Circular k where
  pkt_eq : ∀ j < k.totalTime, (k.nth j).pkt = (k.nth j).kunit.length
  nodeSlen_eq : ∀ j < k.totalTime, (k.nth j).slen = ((k.nth j).kunit.map Skb.pktLen).sum
  ahead : ∀ j, k.span < j → j < k.totalTime → (k.nth j).kunit = []
  paid : ∀ j, 0 < j → j < k.totalTime → (k.nth j).pkt = 0 → (k.nth j).sleepTime = 0
  held_le : k.held ≤ k.slen

theorem EmptyRing.held (h : EmptyRing k) : k.held = 0 :=
  Finset.sum_eq_zero fun _ hj => (h.fresh _ (h.pos_lt (Finset.mem_range.mp hj).le)).slen

theorem EmptyRing.inv (h : EmptyRing k) : RingInv k := by
  have hnth : ∀ j < k.totalTime, (k.nth j).Fresh := fun j hj => h.fresh _ (h.pos_lt hj.le)
  refine ⟨h.toCircular, fun j hj => ?_, fun j hj => ?_, fun j _ hj => (hnth j hj).kunit,
    fun j _ hj _ => (hnth j hj).sleepTime, ?_⟩
  · rw [(hnth j hj).pkt, (hnth j hj).kunit]
    rfl
  · rw [(hnth j hj).slen, (hnth j hj).kunit]
    rfl
  · rw [h.held]
    exact Nat.zero_le _

theorem nth_walk (h : Circular k) {e j : ℕ} (he : e ≤ k.totalTime) (hj : j ≤ k.totalTime) :
    (k.walk e).nth j = if e + j ≤ k.totalTime then k.nth (e + j) else k.nth (e + j - k.totalTime) := by
  change k.node (shift k.totalTime (shift k.totalTime k.pread e) j) = _
  split_ifs with hle
  · rw [shift_shift h.pread_lt hle]
    rfl
  · rw [shift_shift_wrap h.pread_lt he hj (by omega)]
    rfl

theorem Circular.span_walk (h : Circular k) {e : ℕ} (he : e ≤ k.span) :
    (k.walk e).span = k.span - e :=
  gap_shift_left h.pread_lt h.pwrite_lt he

theorem Circular.nth_totalTime (h : Circular k) : k.nth k.totalTime = k.nth 0 := by
  have := h.pread_lt
  simp [Kfifo.nth, Kfifo.pos, shift, this]

theorem nth_walk_induct (h : Circular k) {e : ℕ} (he : e ≤ k.span) {P : ℕ → Knode (List Skb) → Prop}
    (hkept : ∀ i, e ≤ i → i < k.totalTime → P (i - e) (k.nth i))
    (hpassed : ∀ i < e, P (k.totalTime + i - e) (k.nth i)) {j : ℕ} (hj : j < k.totalTime) :
    P j ((k.walk e).nth j) := by
  have hlt := h.span_lt
  rw [nth_walk h (by omega) hj.le]
  split_ifs with hle
  · rcases hle.lt_or_eq with hle | heq
    · have := hkept (e + j) (by omega) hle
      rwa [show e + j - e = j by omega] at this
    · have := hpassed 0 (by omega)
      rw [heq, h.nth_totalTime]
      rwa [show k.totalTime + 0 - e = j by omega] at this
  · have := hpassed (e + j - k.totalTime) (by omega)
    rwa [show k.totalTime + (e + j - k.totalTime) - e = j by omega] at this

theorem Circular.held_walk (h : Circular k) {e : ℕ} (he : e ≤ k.span) :
    (k.walk e).held = k.held := by
  have hcirc : Circular (k.walk e) := h.read_at (h.pos_lt (he.trans h.span_lt.le))
  exact (hcirc.sum_nth Knode.slen).trans (h.sum_nth Knode.slen).symm

theorem RingInv.walk (h : RingInv k) {e : ℕ} (w : ReadWalk k e) : RingInv (k.walk e) := by
  have hlt := h.span_lt
  have hcirc : Circular (k.walk e) := h.read_at (h.pos_lt (w.le_span.trans hlt.le))
  have hempty : ∀ i < e, (k.nth i).kunit = [] := fun i hi => by
    have hlen := h.pkt_eq i (by have := w.le_span; omega)
    rw [w.drained i hi] at hlen
    exact List.eq_nil_of_length_eq_zero hlen.symm
  have hpaid : ∀ i < e, (k.nth i).sleepTime = 0 := fun i hi => by
    rcases Nat.eq_zero_or_pos i with rfl | hpos
    · exact w.paid hi
    · exact h.paid i hpos (by have := w.le_span; omega) (w.drained i hi)
  have hle := w.le_span
  -- the nodes that the walk passes come last now, empty and paid
  refine ⟨hcirc, ?_, ?_, ?_, ?_, (h.toCircular.held_walk hle).trans_le h.held_le⟩
  · intro j hj
    exact nth_walk_induct h.toCircular hle (P := fun _ n => n.pkt = n.kunit.length)
      (fun i _ hi => h.pkt_eq i hi) (fun i hi => h.pkt_eq i (by omega)) hj
  · intro j hj
    exact nth_walk_induct h.toCircular hle (P := fun _ n => n.slen = (n.kunit.map Skb.pktLen).sum)
      (fun i _ hi => h.nodeSlen_eq i hi) (fun i hi => h.nodeSlen_eq i (by omega)) hj
  · intro j hjs hj
    rw [h.span_walk hle] at hjs
    exact nth_walk_induct h.toCircular hle (P := fun j n => k.span - e < j → n.kunit = [])
      (fun i _ hi his => h.ahead i (by omega) hi) (fun i hi _ => hempty i hi) hj hjs
  · intro j hjpos hj
    exact nth_walk_induct h.toCircular hle (P := fun j n => 0 < j → n.pkt = 0 → n.sleepTime = 0)
      (fun i _ hi his => h.paid i (by omega) hi) (fun i hi _ _ => hpaid i hi) hj hjpos

/-- `k'` has node `n` where `k` has the node `d` links after the read pointer, and the
other nodes of `k`. -/
structure Wrote (k k' : Ring) (d : ℕ) (n : Knode (List Skb)) : Prop where
  totalTime : k'.totalTime = k.totalTime
  lt : d < k.totalTime
  nth : ∀ j < k.totalTime, k'.nth j = if j = d then n else k.nth j

variable {k' : Ring} {d : ℕ} {n : Knode (List Skb)}

theorem Wrote.sum {A : Type} [AddCommMonoid A] (w : Wrote k k' d n) (f : Knode (List Skb) → A) :
    ∑ j ∈ Finset.range k'.totalTime, f (k'.nth j) + f (k.nth d) =
      ∑ j ∈ Finset.range k.totalTime, f (k.nth j) + f n := by
  have hmem : d ∈ Finset.range k.totalTime := Finset.mem_range.mpr w.lt
  have hsum : ∑ j ∈ Finset.range k.totalTime, f (k'.nth j) =
      ∑ j ∈ Finset.range k.totalTime, Function.update (fun j => f (k.nth j)) d (f n) j := by
    refine Finset.sum_congr rfl fun j hj => ?_
    rw [w.nth j (Finset.mem_range.mp hj), Function.update_apply]
    split_ifs <;> rfl
  rw [w.totalTime, hsum, Finset.sum_update_of_mem hmem,
    ← Finset.sum_sdiff (Finset.singleton_subset_iff.mpr hmem), Finset.sum_singleton]
  abel

theorem Wrote.held (w : Wrote k k' d n) : k'.held + (k.nth d).slen = k.held + n.slen :=
  w.sum Knode.slen

theorem RingInv.wrote (h : RingInv k) (w : Wrote k k' d n) (hcirc : Circular k')
    (hspan : k.span ≤ k'.span) (hd : d ≤ k'.span)
    (hpkt : n.pkt = n.kunit.length) (hlen : n.slen = (n.kunit.map Skb.pktLen).sum)
    (hpaid : 0 < d → n.pkt = 0 → n.sleepTime = 0)
    (hslen : k'.slen + (k.nth d).slen = k.slen + n.slen) : RingInv k' := by
  have hN := w.totalTime
  refine ⟨hcirc, ?_, ?_, ?_, ?_, ?_⟩
  · intro j hj
    rw [w.nth j (by omega)]
    split_ifs
    · exact hpkt
    · exact h.pkt_eq j (by omega)
  · intro j hj
    rw [w.nth j (by omega)]
    split_ifs
    · exact hlen
    · exact h.nodeSlen_eq j (by omega)
  · intro j hjs hj
    rw [w.nth j (by omega), if_neg (by omega)]
    exact h.ahead j (by omega) (by omega)
  · intro j hjpos hj
    rw [w.nth j (by omega)]
    split_ifs with hjd
    · exact hpaid (by omega)
    · exact h.paid j hjpos (by omega)
  · have := w.held
    have := h.held_le
    omega

theorem Circular.wrote_read (h : Circular k) (f : Knode (List Skb) → Knode (List Skb)) :
    Wrote k (k.modify k.pread f) 0 (f (k.nth 0)) := by
  have hpos : 0 < k.totalTime := by have := h.two_le; omega
  refine ⟨rfl, hpos, fun j hj => ?_⟩
  have := nth_modify (k := k) hpos hj f
  rwa [h.pos_zero] at this

theorem wrote_store (skb : Skb) (cost : ℕ) {t : ℕ} (ht : k.span + t < k.totalTime) :
    Wrote k (k.store skb t cost) (k.span + t)
      ((k.nth (k.span + t)).land k.links skb (k.rate.l2tNs skb.pktLen) cost) :=
  ⟨rfl, ht, fun _ hj => store_nth ht hj⟩

theorem RingInv.store (h : RingInv k) {t cost : ℕ} (l : Landing k skb t cost) :
    RingInv (k.store skb t cost) := by
  have hspan : (k.store skb t cost).span = k.span + t := h.toCircular.span_store l.ahead
  refine h.wrote (wrote_store skb cost l.ahead) (h.toCircular.store l.ahead) (by omega) hspan.ge
    ?_ ?_ ?_ ?_
  · simp [Knode.land, h.pkt_eq _ l.ahead]
  · simp [Knode.land, h.nodeSlen_eq _ l.ahead]
  · simp [Knode.land]
  · simp only [Knode.land, store_slen]
    ring

def Knode.taken (n : Knode (List Skb)) (p : Skb) (l : List Skb) : Knode (List Skb) :=
  { n with pkt := n.pkt - 1, slen := n.slen - p.pktLen, kunit := l }

theorem RingInv.take_eq (h : RingInv k) (hpkt : 0 < (k.nth 0).pkt) :
    ∃ p l, (k.nth 0).kunit = p :: l ∧
      kfifoTake k = (some p, { k.modify k.pread fun n => n.taken p l with
        slen := k.slen - p.pktLen }) ∧
      p.pktLen ≤ (k.nth 0).slen ∧ p.pktLen ≤ k.slen := by
  have hpos : 0 < k.totalTime := by have := h.two_le; omega
  obtain ⟨p, l, hl⟩ := List.exists_cons_of_length_pos (h.pkt_eq 0 hpos ▸ hpkt)
  have hle : p.pktLen ≤ (k.nth 0).slen := by
    rw [h.nodeSlen_eq 0 hpos, hl]
    simp
  have htotal : (k.nth 0).slen ≤ k.slen := le_trans
    (Finset.single_le_sum (f := fun j => (k.nth j).slen) (fun _ _ => Nat.zero_le _)
      (Finset.mem_range.mpr hpos)) h.held_le
  refine ⟨p, l, hl, ?_, hle, hle.trans htotal⟩
  have htot := hle.trans htotal
  rw [h.nth_zero] at hl hpkt hle
  simp only [kfifoTake, hl, kunit_dequeueHead_list, List.head?_cons, List.tail_cons, Kfifo.modify,
    Knode.taken, usub_of_le htot, usub_of_le hle, usub_of_le (show 1 ≤ _ from hpkt)]

theorem RingInv.take (h : RingInv k) (hpkt : 0 < (k.nth 0).pkt) : RingInv (kfifoTake k).2 := by
  obtain ⟨p, l, hl, heq, hle, htotal⟩ := h.take_eq hpkt
  have hpos : 0 < k.totalTime := by have := h.two_le; omega
  have hlen := h.pkt_eq 0 hpos
  have hslen := h.nodeSlen_eq 0 hpos
  rw [hl] at hlen hslen
  simp only [List.length_cons, List.map_cons, List.sum_cons] at hlen hslen
  rw [heq]
  have w := h.toCircular.wrote_read fun n => n.taken p l
  have hcirc := h.toCircular.modify k.pread (f := fun n => n.taken p l) fun _ => rfl
  have w' : Wrote k { k.modify k.pread fun n => n.taken p l with slen := k.slen - p.pktLen } 0
      ((k.nth 0).taken p l) := ⟨rfl, hpos, w.nth⟩
  refine h.wrote w' ⟨hcirc.two_le, hcirc.next_eq, hcirc.pread_lt, hcirc.pwrite_lt⟩
    le_rfl (Nat.zero_le _) ?_ ?_ ?_ ?_
  · simp only [Knode.taken]
    omega
  · simp only [Knode.taken]
    omega
  · simp
  · simp only [Knode.taken]
    omega

theorem RingInv.drained_slen (h : RingInv k) (hpkt : (k.node k.pread).pkt = 0) :
    (k.nth 0).slen = 0 := by
  have hpos : 0 < k.totalTime := by have := h.two_le; omega
  have hlen := h.pkt_eq 0 hpos
  rw [h.nth_zero, hpkt, ← h.nth_zero] at hlen
  rw [h.nodeSlen_eq 0 hpos, List.eq_nil_of_length_eq_zero hlen.symm]
  rfl

theorem RingInv.finish (h : RingInv k) : RingInv (kfifoFinish k).2 := by
  unfold kfifoFinish
  split_ifs with howes
  · have hfresh := kfifoFinishNode_fresh (k.nth 0)
    have hdrained := h.drained_slen howes.1
    refine h.wrote (h.toCircular.wrote_read kfifoFinishNode) (h.modify _ fun _ => rfl)
      le_rfl (Nat.zero_le _) ?_ ?_ ?_ ?_
    · rw [hfresh.pkt, hfresh.kunit]
      rfl
    · rw [hfresh.slen, hfresh.kunit]
      rfl
    · simp
    · rw [hfresh.slen, hdrained]
      rfl
  · exact h

theorem RingInv.pay (h : RingInv k) (howes : k.Owes) : RingInv (k.modify k.pread kfifoFinishNode) := by
  have hinv := h.finish
  rwa [kfifoFinish_owes howes] at hinv

theorem RingInv.enqueue (h : RingInv k) (skb : Skb) :
    ∃ ret k', kfifoEnqueue (some skb) k = .ok (ret, k') ∧ RingInv k' := by
  rcases kfifoEnqueue_cases h.toCircular skb with ⟨heq, -⟩ | ⟨t, cost, l, heq⟩
  · exact ⟨_, _, heq, h⟩
  · exact ⟨_, _, heq, h.store l⟩

theorem RingInv.dequeue (h : RingInv k) :
    ∃ p k', kfifoDequeue k = .ok (p, k') ∧ RingInv k' := by
  obtain ⟨e, w, hend⟩ := kfifoDequeue_cases h.toCircular
  have hwalk := h.walk w
  rcases hend with ⟨hpkt, heq⟩ | ⟨-, heq, -⟩
  · refine ⟨_, _, heq, hwalk.take ?_⟩
    rwa [hwalk.nth_zero]
  · exact ⟨_, _, heq, hwalk⟩

theorem RingInv.step (h : RingInv k) (c : RingCall) :
    ∃ a k', ringStep k c = .ok (a, k') ∧ RingInv k' := by
  cases c with
  | enqueue skb =>
    obtain ⟨ret, k', heq, h'⟩ := h.enqueue skb
    exact ⟨.verdict ret, k', ringStep_enqueue heq, h'⟩
  | dequeue =>
    obtain ⟨p, k', heq, h'⟩ := h.dequeue
    exact ⟨.packet p, k', ringStep_dequeue heq, h'⟩
  | finish => exact ⟨_, _, rfl, h.finish⟩

end MeasurementLimiter
