import MeasurementLimiter.RingInvariant

namespace MeasurementLimiter

open Cyclic

variable {k k' : Ring} {skb : Skb}

def Kfifo.stored (k : Ring) : List Skb :=
  (List.range (k.span + 1)).flatMap fun j => (k.nth j).kunit

theorem RingInv.stored_eq (h : RingInv k) :
    k.stored = (List.range k.totalTime).flatMap fun j => (k.nth j).kunit := by
  have hlt := h.span_lt
  obtain ⟨m, hm⟩ : ∃ m, k.totalTime = k.span + 1 + m := ⟨k.totalTime - (k.span + 1), by omega⟩
  have hrest : (List.range m).flatMap (fun j => (k.nth (k.span + 1 + j)).kunit) = [] := by
    refine List.flatMap_eq_nil_iff.mpr fun j hj => ?_
    have := List.mem_range.mp hj
    exact h.ahead _ (by omega) (by omega)
  have hsplit : List.range (k.span + 1 + m) = List.range (k.span + 1) ++ (List.range m).map _ :=
    List.range_add
  rw [Kfifo.stored, hm, hsplit, List.flatMap_append, List.flatMap_map, hrest, List.append_nil]

theorem RingInv.kunit_nil (h : RingInv k) (hs : k.stored = []) {i : ℕ} (hi : i < k.totalTime) :
    (k.node i).kunit = [] := by
  rw [h.stored_eq, List.flatMap_eq_nil_iff] at hs
  exact h.forall_node (P := fun n => n.kunit = []) (fun j hj => hs j (List.mem_range.mpr hj)) hi

theorem EmptyRing.stored (h : EmptyRing k) : k.stored = [] := by
  refine List.flatMap_eq_nil_iff.mpr fun j hj => ?_
  have := List.mem_range.mp hj
  have := h.span_lt
  exact (h.fresh _ (h.pos_lt (by omega))).kunit

theorem RingInv.stored_store (h : RingInv k) {t cost : ℕ} (l : Landing k skb t cost) :
    (k.store skb t cost).stored = k.stored ++ [skb] := by
  rw [(h.store l).stored_eq, h.stored_eq, store_totalTime]
  refine flatMap_range_snoc l.ahead (fun j hj => ?_) fun j hj => h.ahead j (by omega)
  rw [store_nth l.ahead hj]
  split_ifs <;> rfl

theorem RingInv.stored_walk (h : RingInv k) {e : ℕ} (w : ReadWalk k e) :
    (k.walk e).stored = k.stored := by
  have hlt := h.span_lt
  have hle := w.le_span
  have hfront : (List.range e).flatMap (fun j => (k.nth j).kunit) = [] := by
    refine List.flatMap_eq_nil_iff.mpr fun j hj => ?_
    have hj := List.mem_range.mp hj
    have hlen := h.pkt_eq j (by omega)
    rw [w.drained j hj] at hlen
    exact List.eq_nil_of_length_eq_zero hlen.symm
  have hsplit : List.range (k.span + 1) = List.range e ++
      (List.range (k.span - e + 1)).map (e + ·) := by
    rw [show k.span + 1 = e + (k.span - e + 1) by omega]
    exact List.range_add
  rw [Kfifo.stored, Kfifo.stored, h.span_walk hle, hsplit, List.flatMap_append, List.flatMap_map,
    hfront, List.nil_append]
  refine List.flatMap_congr fun j hj => ?_
  have := List.mem_range.mp hj
  rw [nth_walk h.toCircular (by omega) (by omega), if_pos (by omega)]

theorem RingInv.stored_take (h : RingInv k) (hpkt : 0 < (k.nth 0).pkt) :
    ∃ p, (kfifoTake k).1 = some p ∧ k.stored = p :: (kfifoTake k).2.stored := by
  obtain ⟨p, l, hl, heq, -, -⟩ := h.take_eq hpkt
  have w := h.toCircular.wrote_read fun n => n.taken p l
  rw [heq]
  refine ⟨p, rfl, ?_⟩
  have hspan : ({ k.modify k.pread fun n => n.taken p l with slen := k.slen - p.pktLen } : Ring).span =
      k.span := rfl
  rw [Kfifo.stored, Kfifo.stored, hspan, List.range_succ_eq_map, List.flatMap_cons, List.flatMap_cons,
    hl, List.flatMap_map, List.flatMap_map]
  have h0 := w.nth 0 w.lt
  rw [if_pos rfl] at h0
  change p :: l ++ _ = p :: (((k.modify k.pread fun n => n.taken p l).nth 0).kunit ++ _)
  rw [h0, List.cons_append]
  refine congrArg (p :: ·) (congrArg (l ++ ·) (List.flatMap_congr fun j hj => ?_))
  have hj := List.mem_range.mp hj
  have hspan_lt := h.span_lt
  have hj' := w.nth (j + 1) (by omega)
  rw [if_neg (by omega)] at hj'
  exact congrArg Knode.kunit hj'.symm

theorem RingInv.stored_finish (h : RingInv k) : (kfifoFinish k).2.stored = k.stored := by
  unfold kfifoFinish
  split_ifs with howes
  · have w := h.toCircular.wrote_read kfifoFinishNode
    have hlen := h.pkt_eq 0 w.lt
    rw [h.nth_zero, howes.1, ← h.nth_zero] at hlen
    refine List.flatMap_congr fun j hj => ?_
    have hj : j < k.span + 1 := List.mem_range.mp hj
    have hspan_lt := h.span_lt
    rw [w.nth j (by omega)]
    split_ifs with hzero
    · rw [hzero, List.eq_nil_of_length_eq_zero hlen.symm]
      rfl
    · rfl
  · rfl

theorem RingInv.stored_pay (h : RingInv k) (howes : k.Owes) :
    (k.modify k.pread kfifoFinishNode).stored = k.stored := by
  have hstored := h.stored_finish
  rwa [kfifoFinish_owes howes] at hstored

theorem RingInv.enqueue_stored (h : RingInv k) {ret : NetXmit}
    (heq : kfifoEnqueue (some skb) k = .ok (ret, k')) :
    (ret = .success ∧ k'.stored = k.stored ++ [skb]) ∨ (ret = .drop ∧ k' = k) := by
  rcases kfifoEnqueue_cases h.toCircular skb with ⟨hd, -⟩ | ⟨t, cost, l, hs⟩
  · rw [hd] at heq
    cases heq
    exact .inr ⟨rfl, rfl⟩
  · rw [hs] at heq
    cases heq
    exact .inl ⟨rfl, h.stored_store l⟩

/-- `kfifo_dequeue` gives the head of the queue, or nothing when the queue is empty or
the read node is drained and owes time. -/
theorem RingInv.dequeue_stored (h : RingInv k) {o : Option Skb}
    (heq : kfifoDequeue k = .ok (o, k')) :
    (∃ p, o = some p ∧ k.stored = p :: k'.stored ∧ ¬k.Owes) ∨
      (o = none ∧ k'.stored = k.stored ∧ (k.stored = [] ∨ k.Owes)) := by
  obtain ⟨e, w, hend⟩ := kfifoDequeue_cases h.toCircular
  have hwalk := h.walk w
  have hstored := h.stored_walk w
  rcases hend with ⟨hpkt, hd⟩ | ⟨hpkt, hd, hstop⟩
  · have hpkt' : 0 < ((k.walk e).nth 0).pkt := by rwa [hwalk.nth_zero]
    obtain ⟨p, hp, htake⟩ := hwalk.stored_take hpkt'
    rw [hd] at heq
    rw [Except.ok.inj heq] at hp htake
    refine .inl ⟨p, hp, hstored ▸ htake, fun howes => ?_⟩
    rcases Nat.eq_zero_or_pos e with rfl | hpos
    · rw [h.nth_zero, howes.1] at hpkt
      exact absurd hpkt (lt_irrefl 0)
    · have := w.paid hpos
      rw [h.nth_zero] at this
      exact absurd howes.2 (by omega)
  · rw [hd] at heq
    cases heq
    refine .inr ⟨rfl, hstored, ?_⟩
    rcases hstop with ⟨-, howes⟩ | ⟨rfl, -⟩
    · exact .inr howes
    · left
      rw [Kfifo.stored, List.range_succ, List.flatMap_append, List.flatMap_singleton]
      have hlt := h.span_lt
      have hdrained : ∀ j ≤ k.span, (k.nth j).kunit = [] := fun j hj => by
        have hlen := h.pkt_eq j (by omega)
        rcases hj.lt_or_eq with hj | rfl
        · rw [w.drained j hj] at hlen
          exact List.eq_nil_of_length_eq_zero hlen.symm
        · rw [hpkt] at hlen
          exact List.eq_nil_of_length_eq_zero hlen.symm
      rw [hdrained _ le_rfl, List.append_nil]
      exact List.flatMap_eq_nil_iff.mpr fun j hj => hdrained j (List.mem_range.mp hj).le

theorem RingInv.dequeue_some (h : RingInv k) {p : Skb} (heq : kfifoDequeue k = .ok (some p, k')) :
    k.stored = p :: k'.stored ∧ ¬k.Owes := by
  obtain ⟨p', hp, hstored, howes⟩ | ⟨hnone, -⟩ := h.dequeue_stored heq
  · obtain rfl := Option.some.inj hp
    exact ⟨hstored, howes⟩
  · cases hnone

theorem RingInv.dequeue_none (h : RingInv k) (heq : kfifoDequeue k = .ok (none, k')) :
    k'.stored = k.stored ∧ (k.stored = [] ∨ k.Owes) := by
  obtain ⟨p, hsome, -⟩ | ⟨-, hstored, hstop⟩ := h.dequeue_stored heq
  · cases hsome
  · exact ⟨hstored, hstop⟩

/-- `kfifo_dequeue` on a ring whose read node owes time leaves the ring as it is, and on any
other it comes to no node that owes time. -/
theorem RingInv.dequeue_owes (h : RingInv k) (heq : kfifoDequeue k = .ok (none, k')) :
    (k.Owes ∧ k' = k) ∨ (¬k.Owes ∧ ¬k'.Owes) := by
  obtain ⟨e, w, hend⟩ := kfifoDequeue_cases h.toCircular
  have hwalk := h.walk w
  have hlt := h.span_lt
  rcases hend with ⟨hpkt, hd⟩ | ⟨hpkt, hd, hstop⟩
  · have hpkt' : 0 < ((k.walk e).nth 0).pkt := by rwa [hwalk.nth_zero]
    obtain ⟨p, hp, -⟩ := hwalk.stored_take hpkt'
    rw [hd] at heq
    rw [Except.ok.inj heq] at hp
    cases hp
  · rw [hd] at heq
    obtain ⟨-, rfl⟩ := Prod.mk.inj (Except.ok.inj heq)
    rcases hstop with ⟨rfl, howes⟩ | ⟨rfl, howes⟩
    · exact .inl ⟨howes, by rw [Kfifo.walk, h.pos_zero]⟩
    · refine .inr ⟨howes, fun howes' => ?_⟩
      rcases Nat.eq_zero_or_pos k.span with hzero | hpos
      · rw [hzero, Kfifo.walk, h.pos_zero] at howes'
        exact howes howes'
      · have hpaid := h.paid k.span hpos hlt hpkt
        have howed : 0 < (k.nth k.span).sleepTime := howes'.2
        omega

theorem RingInv.step_stored (h : RingInv k) {c : RingCall} {a : RingAnswer}
    (heq : ringStep k c = .ok (a, k')) : Fifo.Step k.stored (ringAct (c, a)) k'.stored := by
  cases c with
  | enqueue skb =>
    obtain ⟨ret, k₁, he, -⟩ := h.enqueue skb
    rw [ringStep_enqueue he] at heq
    cases heq
    rcases h.enqueue_stored he with ⟨rfl, hs⟩ | ⟨rfl, rfl⟩
    · rw [hs]
      exact .push _ _
    · exact .idle _
  | dequeue =>
    obtain ⟨o, k₁, he, -⟩ := h.dequeue
    rw [ringStep_dequeue he] at heq
    cases heq
    rcases h.dequeue_stored he with ⟨p, rfl, hs, -⟩ | ⟨rfl, hs, -⟩
    · rw [hs]
      exact .pop _ _
    · rw [hs]
      exact .idle _
  | finish =>
    rw [ringStep_finish] at heq
    obtain ⟨rfl, rfl⟩ := Prod.mk.inj (Except.ok.inj heq)
    rw [h.stored_finish]
    exact .idle _

/-- Along every run of the ring from an empty one, what was returned and what is stored
are what was accepted. -/
theorem EmptyRing.run {k₀ : Ring} (h₀ : EmptyRing k₀) {h : RingHistory}
    (run : Runs.Run ringStep k₀ h k) :
    RingInv k ∧ k.totalTime = k₀.totalTime ∧ returnedBy h ++ k.stored = acceptedBy h := by
  have hinv : RingInv k ∧ k.totalTime = k₀.totalTime :=
    run.keeps (I := fun k => RingInv k ∧ k.totalTime = k₀.totalTime) ⟨h₀.inv, rfl⟩
      fun k c a k' hI _ heq => by
        obtain ⟨a₁, k₁, he, hk₁⟩ := hI.1.step c
        rw [he] at heq
        obtain ⟨rfl, rfl⟩ := Prod.mk.inj (Except.ok.inj heq)
        exact ⟨hk₁, (ringStep_same hI.1.toCircular he).totalTime.trans hI.2⟩
  refine ⟨hinv.1, hinv.2, Fifo.conserved (I := RingInv) h₀.inv h₀.stored ?_ run⟩
  intro k c a k' hI _ heq
  obtain ⟨a₁, k₁, he, hk₁⟩ := hI.step c
  have hact := hI.step_stored heq
  rw [he] at heq
  obtain ⟨rfl, rfl⟩ := Prod.mk.inj (Except.ok.inj heq)
  exact ⟨hk₁, hact⟩

end MeasurementLimiter
