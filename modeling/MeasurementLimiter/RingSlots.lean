import MeasurementLimiter.SlotQueue
import MeasurementLimiter.RingFifo
import MeasurementLimiter.RingCounters

namespace MeasurementLimiter

open Cyclic Runs SlotQueue

variable {k k' : Ring} {skb : Skb} {o : Option Skb}

def Knode.slot (n : Knode (List Skb)) : Slot Skb := ⟨n.kunit, n.sleepTime, n.leftTime⟩

def Kfifo.layout (k : Ring) : Layout Skb where
  unit := unitTime
  count := k.totalTime
  room := k.totalLen
  time skb := k.rate.l2tNs skb.pktLen
  size := Skb.pktLen

def Kfifo.queue (k : Ring) : Queue Skb where
  slots := (List.range (k.span + 1)).map fun j => (k.nth j).slot
  size := k.slen

def slotStep (L : Layout Skb) (q : Queue Skb) : RingCall → Except Fault (RingAnswer × Queue Skb)
  | .enqueue skb => let (stored, q) := push L skb q
      .ok (.verdict (if stored then .success else .drop), q)
  | .dequeue => let (skb, q) := pop L q
      .ok (.packet skb, q)
  | .finish => let (sleepTime, q) := settle L q
      .ok (.slept sleepTime, q)

theorem Knode.Fresh.slot {n : Knode (List Skb)} (h : n.Fresh) : n.slot = ⟨[], 0, unitTime⟩ := by
  rw [Knode.slot, h.kunit, h.sleepTime, h.leftTime]
  rfl

theorem queue_slots (k : Ring) : k.queue.slots =
    (List.range k.span).map (fun j => (k.nth j).slot) ++ [(k.nth k.span).slot] := by
  rw [Kfifo.queue, List.range_succ, List.map_append, List.map_singleton]

theorem queue_eq (k : Ring) : k.queue =
    ⟨(List.range k.span).map (fun j => (k.nth j).slot) ++ [(k.nth k.span).slot], k.slen⟩ := by
  rw [← queue_slots]
  rfl

theorem queue_cons (k : Ring) : k.queue.slots =
    (k.nth 0).slot :: (List.range k.span).map fun j => (k.nth (j + 1)).slot := by
  rw [Kfifo.queue, List.range_succ_eq_map, List.map_cons, List.map_map]
  rfl

theorem RingInv.isEmpty_iff (h : RingInv k) {j : ℕ} (hj : j < k.totalTime) :
    (k.nth j).kunit = [] ↔ (k.nth j).pkt = 0 := by
  rw [h.pkt_eq j hj, List.length_eq_zero_iff]

theorem RingInv.owes_iff (h : RingInv k) : owes k.queue.slots = true ↔ k.Owes := by
  have hpos : 0 < k.totalTime := by have := h.two_le; omega
  rw [queue_cons, owes_cons, Bool.and_eq_true, List.isEmpty_iff, decide_eq_true_iff, Kfifo.Owes,
    ← h.nth_zero, ← h.isEmpty_iff hpos]
  rfl

section Store

variable {t cost : ℕ}

theorem Landing.jump_eq (h : Timed k) (l : Landing k skb t cost)
    (hshort : k.rate.l2tNs skb.pktLen < 2 ^ 31) :
    t = k.layout.jump skb (k.nth k.span).slot := by
  change t = if (k.nth k.span).leftTime < k.rate.l2tNs skb.pktLen then
    k.rate.l2tNs skb.pktLen / unitTime + 1 else 0
  have hplace := l.place
  rw [← h.nth_span, jumpLen_of_lt hshort] at hplace
  rcases hplace with ⟨ht, -, hfit⟩ | ⟨ht, -, hover⟩
  · rw [if_neg (not_lt.mpr hfit), ht]
  · rw [if_pos hover, ht]

theorem Timed.slot_landed (h : Timed k) (l : Landing k skb t cost)
    (hshort : k.rate.l2tNs skb.pktLen < 2 ^ 31) :
    ((k.store skb t cost).nth (k.span + t)).slot =
      k.layout.add (k.nth (k.span + t)).slot skb cost := by
  rw [l.nth_store, Knode.slot, land_leftTime _ (h.cost_le l hshort)]
  rfl

theorem Landing.slots_before (l : Landing k skb t cost) {n : ℕ} (hn : n ≤ k.span + t) :
    (List.range n).map (fun j => ((k.store skb t cost).nth j).slot) =
      (List.range n).map fun j => (k.nth j).slot := by
  refine List.map_congr_left fun j hj => ?_
  have hlt := l.ahead
  have hj := List.mem_range.mp hj
  rw [l.nth_other (by omega) (by omega)]

theorem Timed.slots_store (h : Timed k) (l : Landing k skb t cost)
    (hshort : k.rate.l2tNs skb.pktLen < 2 ^ 31) : (k.store skb t cost).queue.slots =
      k.layout.place skb ((List.range k.span).map fun j => (k.nth j).slot) (k.nth k.span).slot := by
  have hspan : (k.store skb t cost).span = k.span + t := h.toCircular.span_store l.ahead
  have hlt := l.ahead
  have hfresh : ∀ j, 0 < j → k.span + j < k.totalTime → (k.nth (k.span + j)).slot = k.layout.emptySlot :=
    fun j hpos hj => by
      have hpkt : (k.nth (k.span + j)).pkt = 0 := h.ahead_pkt (by omega) hj
      exact (h.fresh _ (by omega) hj hpkt).slot
  have hplace := l.place
  rw [← h.nth_span, jumpLen_of_lt hshort, jumpCost_of_lt hshort] at hplace
  rw [queue_slots, hspan, h.slot_landed l hshort, l.slots_before le_rfl]
  rcases hplace with ⟨rfl, hcost, hfit⟩ | ⟨ht, hcost, hover⟩
  · have hstays : ¬(k.nth k.span).slot.left < k.layout.time skb := not_lt.mpr hfit
    rw [Layout.place, if_neg hstays, hcost]
    rfl
  · have hjumps : (k.nth k.span).slot.left < k.layout.time skb := hover
    obtain ⟨m, hm⟩ : ∃ m, m = k.rate.l2tNs skb.pktLen / unitTime := ⟨_, rfl⟩
    rw [← hm] at ht
    have hskipped : (List.range m).map (fun j => (k.nth (k.span + 1 + j)).slot) =
        List.replicate m k.layout.emptySlot := by
      refine List.eq_replicate_iff.mpr ⟨by simp, fun s hs => ?_⟩
      obtain ⟨j, hj, rfl⟩ := List.mem_map.mp hs
      have hj := List.mem_range.mp hj
      rw [Nat.add_assoc]
      exact hfresh (1 + j) (by omega) (by omega)
    have hsplit : List.range (k.span + t) = List.range (k.span + 1) ++
        (List.range m).map (k.span + 1 + ·) := by
      rw [show k.span + t = k.span + 1 + m by omega]
      exact List.range_add
    have hplace : k.layout.place skb ((List.range k.span).map fun j => (k.nth j).slot)
        (k.nth k.span).slot = (List.range k.span).map (fun j => (k.nth j).slot) ++
          (k.nth k.span).slot :: List.replicate m k.layout.emptySlot ++
            [k.layout.add k.layout.emptySlot skb cost] := by
      rw [Layout.place, if_pos hjumps, hcost, hm]
      rfl
    rw [hplace, hsplit, List.map_append, List.map_map, List.range_succ, List.map_append,
      List.map_singleton, hfresh t (by omega) hlt, ← hskipped, List.append_assoc _ [_]]
    rfl

end Store

theorem busy_iff (h : RingInv k) : busy k.queue.slots = true ↔
    0 < (k.node k.pwrite).pkt ∧ k.pwrite = k.pread := by
  have hpos : 0 < k.totalTime := by have := h.two_le; omega
  rw [queue_slots, busy_concat, Bool.and_eq_true, List.isEmpty_iff, List.map_eq_nil_iff,
    List.range_eq_nil, Bool.not_eq_true', List.isEmpty_eq_false_iff]
  have hread := h.toCircular.span_eq_zero
  have hkunit := h.isEmpty_iff h.span_lt
  rw [← h.nth_span]
  change k.span = 0 ∧ (k.nth k.span).kunit ≠ [] ↔ _
  rw [ne_eq, hkunit, hread, and_comm, eq_comm (a := k.pread)]
  exact and_congr_left fun _ => Nat.pos_iff_ne_zero.symm

theorem Timed.lands_iff (h : Timed k) (hshort : k.rate.l2tNs skb.pktLen < 2 ^ 31) :
    (∃ t cost, Landing k skb t cost) ↔
      ¬(k.layout.room < k.layout.size skb + k.slen ∨ busy k.queue.slots ∨
        k.layout.count < k.span + 1 + k.layout.jump skb (k.nth k.span).slot) := by
  rw [busy_iff h.toRingInv]
  constructor
  · rintro ⟨t, cost, l⟩
    have hahead := l.ahead
    have hroom := l.room
    rw [l.jump_eq h hshort] at hahead
    rintro (hfull | hbusy | hlong)
    · exact absurd hfull (not_lt.mpr hroom)
    · exact l.free hbusy
    · change k.totalTime < _ at hlong
      omega
  · intro hok
    obtain ⟨hroom, hbusy, hlong⟩ : ¬_ ∧ ¬_ ∧ ¬_ := by simpa only [not_or] using hok
    have hahead : k.span + k.layout.jump skb (k.nth k.span).slot < k.totalTime := by
      have hle : k.span + 1 + k.layout.jump skb (k.nth k.span).slot ≤ k.totalTime := not_lt.mp hlong
      omega
    rw [Layout.jump, h.nth_span] at hahead
    by_cases hover : (k.node k.pwrite).leftTime < k.rate.l2tNs skb.pktLen
    · refine ⟨_, _, not_lt.mp hroom, hbusy, ?_, .inr ⟨rfl, rfl, hover⟩⟩
      rw [jumpLen_of_lt hshort]
      have hjump : (k.node k.pwrite).slot.left < k.layout.time skb := hover
      rwa [if_pos hjump] at hahead
    · exact ⟨0, _, not_lt.mp hroom, hbusy, h.span_lt, .inl ⟨rfl, rfl, not_lt.mp hover⟩⟩

theorem Timed.push_eq (h : Timed k) (hshort : k.rate.l2tNs skb.pktLen < 2 ^ 31) {ret : NetXmit}
    (heq : kfifoEnqueue (some skb) k = .ok (ret, k')) :
    ∃ stored, push k.layout skb k.queue = (stored, k'.queue) ∧
      ret = if stored then .success else .drop := by
  have hlands := h.lands_iff hshort
  rw [queue_slots] at hlands
  rw [queue_eq, push_concat, List.length_map, List.length_range]
  rcases kfifoEnqueue_cases h.toCircular skb with ⟨hd, hno⟩ | ⟨t, cost, l, hs⟩
  · rw [hd] at heq
    obtain ⟨rfl, rfl⟩ := Prod.mk.inj (Except.ok.inj heq)
    have hrefused := mt hlands.mpr fun ⟨t, cost, l⟩ => hno t cost l
    refine ⟨false, ?_, rfl⟩
    rw [if_pos (not_not.mp hrefused), ← queue_eq]
  · rw [hs] at heq
    obtain ⟨rfl, rfl⟩ := Prod.mk.inj (Except.ok.inj heq)
    refine ⟨true, ?_, rfl⟩
    rw [if_neg (hlands.mp ⟨t, cost, l⟩), ← h.slots_store l hshort]
    rfl

theorem slots_walk (h : Circular k) {e : ℕ} (he : e ≤ k.span) :
    (k.walk e).queue.slots = k.queue.slots.drop e := by
  have hlt := h.span_lt
  rw [Kfifo.queue, Kfifo.queue, h.span_walk he]
  refine List.ext_getElem (by simp; omega) fun j hj _ => ?_
  have hj : j < k.span - e + 1 := by simpa using hj
  simp only [List.getElem_map, List.getElem_range, List.getElem_drop]
  rw [nth_walk_le h (by omega)]

theorem Wrote.slots_read (h : Circular k) {n : Knode (List Skb)} (w : Wrote k k' 0 n)
    (hspan : k'.span = k.span) :
    k'.queue.slots = n.slot :: (List.range k.span).map fun j => (k.nth (j + 1)).slot := by
  have hread := w.nth 0 w.lt
  rw [if_pos rfl] at hread
  rw [queue_cons, hspan, hread]
  refine congrArg (n.slot :: ·) (List.map_congr_left fun j hj => ?_)
  have hj := List.mem_range.mp hj
  rw [w.nth (j + 1) (by have := h.span_lt; omega), if_neg (by omega)]

theorem RingInv.takeFirst_eq (h : RingInv k) (hpkt : 0 < (k.nth 0).pkt) :
    takeFirst k.layout k.slen k.queue.slots = ((kfifoTake k).1, (kfifoTake k).2.queue) := by
  obtain ⟨p, l, hl, heq, -, -⟩ := h.take_eq hpkt
  have w := h.toCircular.wrote_read fun n => n.taken p l
  have hslots := w.slots_read h.toCircular rfl
  rw [heq, queue_cons, Knode.slot, hl]
  exact congrArg (fun l => (some p, (⟨l, k.slen - p.pktLen⟩ : Queue Skb))) hslots.symm

theorem RingInv.skip_eq (h : RingInv k) {e : ℕ} (w : ReadWalk k e)
    (hend : 0 < (k.nth e).pkt ∨ e = k.span) : skip k.queue.slots = (k.walk e).queue.slots := by
  have hlt := h.span_lt
  have hle := w.le_span
  have hlen : k.queue.slots.length = k.span + 1 := by simp [Kfifo.queue]
  rw [slots_walk h.toCircular hle]
  refine skip_eq_drop (by omega) (fun s hs => ?_) ?_
  · rw [Kfifo.queue, ← List.map_take, List.take_range] at hs
    obtain ⟨j, hj, rfl⟩ := List.mem_map.mp hs
    have hj := List.mem_range.mp hj
    exact (h.isEmpty_iff (by omega)).mpr (w.drained j (by omega))
  · rcases hend with hpkt | hspan
    · left
      simp only [Kfifo.queue, List.getElem_map, List.getElem_range]
      change (k.nth e).kunit ≠ []
      rw [ne_eq, h.isEmpty_iff (by omega)]
      omega
    · right
      rw [hlen, hspan]

theorem RingInv.pop_eq (h : RingInv k) (heq : kfifoDequeue k = .ok (o, k')) :
    pop k.layout k.queue = (o, k'.queue) := by
  obtain ⟨e, w, ⟨hpkt, hd⟩ | ⟨hpkt, hd, hstop⟩⟩ := kfifoDequeue_cases h.toCircular
  · have hwalk := h.walk w
    have howes : ¬k.Owes := fun ho => by
      rcases Nat.eq_zero_or_pos e with rfl | hpos
      · rw [h.nth_zero, ho.1] at hpkt
        exact absurd hpkt (lt_irrefl 0)
      · have hpaid := w.paid hpos
        rw [h.nth_zero] at hpaid
        exact absurd ho.2 (by omega)
    have htake := hwalk.takeFirst_eq (by rwa [hwalk.nth_zero])
    rw [hd] at heq
    rw [pop, if_neg (mt h.owes_iff.mp howes), h.skip_eq w (.inl hpkt)]
    rw [Except.ok.inj heq] at htake
    exact htake
  · rw [hd] at heq
    obtain ⟨rfl, rfl⟩ := Prod.mk.inj (Except.ok.inj heq)
    rcases hstop with ⟨rfl, howes⟩ | ⟨rfl, howes⟩
    · rw [pop, if_pos (h.owes_iff.mpr howes), Kfifo.walk, h.pos_zero]
    · have hwalk := h.walk w
      have hempty : ((k.walk k.span).nth 0).slot.items = [] := by
        have hlt := h.span_lt
        rw [nth_walk_le h.toCircular (by omega), Nat.add_zero]
        exact (h.isEmpty_iff hlt).mpr hpkt
      rw [pop, if_neg (mt h.owes_iff.mp howes), h.skip_eq w (.inr rfl), queue_cons,
        takeFirst_empty _ hempty, ← queue_cons]
      rfl

theorem RingInv.settle_eq (h : RingInv k) :
    settle k.layout k.queue = ((kfifoFinish k).1, (kfifoFinish k).2.queue) := by
  have howes := h.owes_iff
  rw [settle]
  rw [queue_cons] at howes ⊢
  by_cases ho : k.Owes
  · have w := h.toCircular.wrote_read kfifoFinishNode
    have hslots := w.slots_read h.toCircular rfl
    rw [(kfifoFinishNode_fresh _).slot] at hslots
    rw [kfifoFinish_owes ho, ← h.nth_zero]
    simp only [if_pos (howes.mpr ho)]
    exact congrArg (fun l => (some (k.nth 0).sleepTime, (⟨l, k.slen⟩ : Queue Skb))) hslots.symm
  · rw [kfifoFinish_free ho]
    simp only [if_neg (mt howes.mp ho)]

theorem Timed.slotStep_eq (h : Timed k) {c : RingCall} (hc : Short k c) {a : RingAnswer}
    (heq : ringStep k c = .ok (a, k')) : slotStep k.layout k.queue c = .ok (a, k'.queue) := by
  cases c with
  | enqueue skb =>
    obtain ⟨ret, k₁, he, -⟩ := h.toRingInv.enqueue skb
    rw [ringStep_enqueue he] at heq
    obtain ⟨rfl, rfl⟩ := Prod.mk.inj (Except.ok.inj heq)
    obtain ⟨stored, hpush, hret⟩ := h.push_eq hc he
    simp only [slotStep, hpush, ← hret]
  | dequeue =>
    obtain ⟨o, k₁, he, -⟩ := h.toRingInv.dequeue
    rw [ringStep_dequeue he] at heq
    obtain ⟨rfl, rfl⟩ := Prod.mk.inj (Except.ok.inj heq)
    simp only [slotStep, h.toRingInv.pop_eq he]
  | finish =>
    rw [ringStep_finish] at heq
    obtain ⟨rfl, rfl⟩ := Prod.mk.inj (Except.ok.inj heq)
    simp only [slotStep, h.toRingInv.settle_eq]

theorem SameRing.trans {k'' : Ring} (h : SameRing k k') (h' : SameRing k' k'') : SameRing k k'' :=
  ⟨h'.totalTime.trans h.totalTime, h'.totalLen.trans h.totalLen, h'.rate.trans h.rate⟩

theorem SameRing.layout (h : SameRing k k') : k'.layout = k.layout := by
  simp only [Kfifo.layout, h.totalTime, h.totalLen, h.rate]

theorem SameRing.short (h : SameRing k k') {c : RingCall} : Short k' c ↔ Short k c := by
  cases c with
  | enqueue skb => simp only [Short, h.rate]
  | dequeue | finish => exact Iff.rfl

/-- What is known of a ring along the runs from `k`, and of the queue that follows it. -/
structure FollowsRing (k k' : Ring) (q : Queue Skb) : Prop where
  timed : Timed k'
  same : SameRing k k'
  queue : k'.queue = q

theorem FollowsRing.step {q : Queue Skb} {k₁ k₂ : Ring} (f : FollowsRing k k₁ q) {c : RingCall}
    (hc : Short k c) {a : RingAnswer} (heq : ringStep k₁ c = .ok (a, k₂)) :
    slotStep k.layout q c = .ok (a, k₂.queue) ∧ FollowsRing k k₂ k₂.queue := by
  have hshort : Short k₁ c := f.same.short.mpr hc
  have hsame := ringStep_same f.timed.toCircular heq
  have hslot := f.timed.slotStep_eq hshort heq
  rw [f.same.layout, f.queue] at hslot
  exact ⟨hslot, f.timed.step hshort heq, f.same.trans hsame, rfl⟩

theorem Timed.behaves (h₀ : Timed k) {h : RingHistory} {q : Queue Skb} :
    (∃ k', GuardedRun ringStep Short k h k' ∧ k'.queue = q) ↔
      GuardedRun (slotStep k.layout) (fun _ => Short k) k.queue h q := by
  have hself : FollowsRing k k k.queue := ⟨h₀, ⟨rfl, rfl, rfl⟩, rfl⟩
  constructor
  · rintro ⟨k', run, rfl⟩
    obtain ⟨q, hq, f⟩ := run.simulate_guarded (T := slotStep k.layout)
      (D := fun _ => Short k) (R := FollowsRing k) hself fun k₁ q c a k₂ f hc heq => by
        have hshort := f.same.short.mp hc
        obtain ⟨hslot, f'⟩ := f.step hshort heq
        exact ⟨hshort, _, hslot, f'⟩
    exact f.queue ▸ hq
  · intro run
    obtain ⟨k', hk', f⟩ := run.simulate_guarded (T := ringStep) (D := Short)
      (R := fun q k₁ => FollowsRing k k₁ q) hself fun q k₁ c a q' f hc heq => by
        obtain ⟨a', k₂, hk₂, -⟩ := f.timed.toRingInv.step c
        obtain ⟨hslot, f'⟩ := f.step hc hk₂
        rw [heq] at hslot
        obtain ⟨rfl, rfl⟩ := Prod.mk.inj (Except.ok.inj hslot)
        exact ⟨f.same.short.mpr hc, k₂, hk₂, f'⟩
    exact ⟨k', hk', f.queue⟩

theorem EmptyRing.queue (h : EmptyRing k) : k.queue = ⟨[⟨[], 0, unitTime⟩], k.slen⟩ := by
  have hspan : k.span = 0 := h.span_eq_zero.mpr h.start
  have hpos : 0 < k.totalTime := by have := h.two_le; omega
  have hfresh : (k.nth 0).Fresh := h.fresh _ (h.pos_lt hpos.le)
  rw [queue_eq, hspan, hfresh.slot]
  rfl

/-- On short packets the ring of `kfifo_init` has exactly the behaviours of a queue of time slots
that starts with one empty slot in use. -/
theorem ring_refines_slots (k₀ : Ring) (fifo : ℕ → Knode (List Skb)) {number : ℕ}
    (hnumber : 2 ≤ number) (rate : ℕ) (h : RingHistory) :
    (∃ k, GuardedRun ringStep Short (kfifoInit (some fifo) number rate k₀).2 h k) ↔
      ∃ q, GuardedRun (slotStep (kfifoInit (some fifo) number rate k₀).2.layout)
        (fun _ => Short (kfifoInit (some fifo) number rate k₀).2)
        ⟨[⟨[], 0, unitTime⟩], (kfifoInit (some fifo) number rate k₀).2.slen⟩ h q := by
  have hempty := kfifoInit_empty k₀ fifo hnumber rate
  have hb := fun q => hempty.timed.behaves (h := h) (q := q)
  rw [← hempty.queue]
  constructor
  · rintro ⟨k, run⟩
    exact ⟨k.queue, (hb _).mp ⟨k, run, rfl⟩⟩
  · rintro ⟨q, run⟩
    obtain ⟨k, hk, -⟩ := (hb q).mpr run
    exact ⟨k, hk⟩

instance decidableShort (k : Ring) : (c : RingCall) → Decidable (Short k c)
  | .enqueue skb => inferInstanceAs (Decidable (k.rate.l2tNs skb.pktLen < 2 ^ 31))
  | .dequeue => .isTrue trivial
  | .finish => .isTrue trivial

/-- The calls on a ring of three nodes where a packet jumps, leaves and is slept for. -/
def slotsHistory : RingHistory :=
  [(.enqueue (skbSample 1 1500), .verdict .success), (.dequeue, .packet (skbSample 1 1500)),
    (.finish, .slept (some 1500000))]

theorem ring_refines_slots_sample :
    ∃ q, GuardedRun (slotStep ringSample.layout) (fun _ => Short ringSample)
      ⟨[⟨[], 0, unitTime⟩], ringSample.slen⟩ slotsHistory q := by
  obtain ⟨⟨h, k⟩, hexec, hh⟩ := Option.map_eq_some_iff.mp
    (show (execGuarded ringStep Short ringSample (slotsHistory.map Prod.fst)).map Prod.fst =
      some slotsHistory by decide +kernel)
  obtain rfl : h = slotsHistory := hh
  exact (ring_refines_slots _ _ (by decide) _ _).mp ⟨k, guardedRun_of_exec hexec⟩

theorem Timed.indistinguishable (h₁ : Timed k) (h₂ : Timed k') (hsame : SameRing k k')
    (hqueue : k'.queue = k.queue) (h : RingHistory) :
    (∃ k₁, GuardedRun ringStep Short k h k₁) ↔ ∃ k₂, GuardedRun ringStep Short k' h k₂ := by
  have hguard : (fun _ : Queue Skb => Short k') = fun _ => Short k := by
    funext _ c
    exact propext hsame.short
  have hb := fun q => h₂.behaves (h := h) (q := q)
  rw [hsame.layout, hqueue, hguard] at hb
  constructor
  · rintro ⟨k₁, run⟩
    obtain ⟨k₂, hk₂, -⟩ := (hb _).mpr (h₁.behaves.mp ⟨k₁, run, rfl⟩)
    exact ⟨k₂, hk₂⟩
  · rintro ⟨k₂, run⟩
    obtain ⟨k₁, hk₁, -⟩ := h₁.behaves.mpr ((hb _).mp ⟨k₂, run, rfl⟩)
    exact ⟨k₁, hk₁⟩

theorem Accounted.queue_drained (h : Accounted k) (hstored : k.stored = []) (howes : ¬k.Owes) :
    k.queue = ⟨[⟨[], 0, unitTime⟩], 0⟩ := by
  have hpos : 0 < k.totalTime := by have := h.two_le; omega
  have hkunit : ∀ j < k.totalTime, (k.nth j).kunit = [] := fun j hj =>
    h.kunit_nil hstored (h.pos_lt hj.le)
  have hspan : k.span = 0 := by
    by_contra hne
    have hfull := h.write_pkt (Nat.pos_of_ne_zero hne)
    rw [h.pkt_eq _ h.span_lt, hkunit _ h.span_lt] at hfull
    exact absurd hfull (lt_irrefl 0)
  have hpkt : (k.nth 0).pkt = 0 := (h.isEmpty_iff hpos).mp (hkunit 0 hpos)
  have hsleep : (k.nth 0).sleepTime = 0 := by
    by_contra hne
    rw [h.nth_zero] at hpkt hne
    exact howes ⟨hpkt, Nat.pos_of_ne_zero hne⟩
  have hslen : k.slen = 0 := by
    rw [h.slen_eq, Kfifo.held]
    refine Finset.sum_eq_zero fun j hj => ?_
    have hj := Finset.mem_range.mp hj
    rw [h.nodeSlen_eq j hj, hkunit j hj]
    rfl
  rw [queue_eq, hspan, (h.toTimed.fresh_zero hpkt hsleep).slot, hslen]
  rfl

/-- After any run of short packets from a ring without bytes, a ring that is empty and owes
nothing behaves as at its start. -/
theorem drained_as_new {k₀ : Ring} (hempty : EmptyRing k₀) (hslen : k₀.slen = 0)
    {h : RingHistory} (run : GuardedRun ringStep Short k₀ h k) (hstored : k.stored = [])
    (howes : ¬k.Owes) (h' : RingHistory) :
    (∃ k₁, GuardedRun ringStep Short k₀ h' k₁) ↔ ∃ k₂, GuardedRun ringStep Short k h' k₂ := by
  obtain ⟨hacc, hsame⟩ : Accounted k ∧ SameRing k₀ k := by
    refine run.keeps (I := fun k => Accounted k ∧ SameRing k₀ k)
      ⟨hempty.accounted hslen, ⟨rfl, rfl, rfl⟩⟩ ?_
    rintro k c a k' ⟨hacc, hs⟩ hc heq
    exact ⟨(hacc.step hc heq).1, hs.trans (ringStep_same hacc.toCircular heq)⟩
  refine hempty.timed.indistinguishable hacc.toTimed hsame ?_ h'
  rw [hacc.queue_drained hstored howes, hempty.queue, hslen]

theorem drained_as_new_sample :
    ∃ k : Ring, (k.pread, k.stored, decide k.Owes) = (2, [], false) ∧ ∀ h' : RingHistory,
      (∃ k₁, GuardedRun ringStep Short ringSample h' k₁) ↔
        ∃ k₂, GuardedRun ringStep Short k h' k₂ := by
  obtain ⟨h, k, run, hk⟩ := exists_guardedRun_of_exec (C := Short)
    (fun k : Ring => (k.pread, k.stored, decide k.Owes)) (b := (2, [], false))
    (show (execGuarded ringStep Short ringSample
      [.enqueue (skbSample 1 1500), .dequeue, .finish]).map _ = _ by decide +kernel)
  have hstored : k.stored = [] := congrArg (fun r => r.2.1) hk
  have howes : ¬k.Owes := of_decide_eq_false (congrArg (fun r => r.2.2) hk)
  exact ⟨k, hk, drained_as_new (kfifoInit_empty _ _ (by decide) _) rfl run hstored howes⟩

end MeasurementLimiter
