import MeasurementLimiter.SlotUse
import MeasurementLimiter.RingSlots
import MeasurementLimiter.RingLedger

namespace MeasurementLimiter

open Runs SlotQueue

variable {k k₀ k' : Ring} {skb : Skb} {h : RingHistory}

theorem EmptyRing.tight (hempty : EmptyRing k) : Tight k.layout k.queue.slots := by
  rw [hempty.queue]
  refine ⟨by simp, ?_, fun htail => absurd rfl htail, trivial, fun s hs => absurd hs List.not_mem_nil⟩
  exact (Nat.le_succ 1).trans hempty.two_le

theorem slotStep_tight {L : Layout Skb} (hunit : 0 < L.unit) {q q' : Queue Skb}
    (ht : Tight L q.slots) {c : RingCall} {a : RingAnswer} (heq : slotStep L q c = .ok (a, q')) :
    Tight L q'.slots := by
  cases c with
  | enqueue skb =>
    obtain ⟨-, rfl⟩ := Prod.mk.inj (Except.ok.inj heq)
    exact ht.push hunit
  | dequeue =>
    obtain ⟨-, rfl⟩ := Prod.mk.inj (Except.ok.inj heq)
    exact ht.pop
  | finish =>
    obtain ⟨-, rfl⟩ := Prod.mk.inj (Except.ok.inj heq)
    exact ht.settle

theorem EmptyRing.tight_of_run (hempty : EmptyRing k₀) (run : GuardedRun ringStep Short k₀ h k) :
    Tight k₀.layout k.queue.slots := by
  have hrun : GuardedRun (slotStep k₀.layout) (fun _ => Short k₀) k₀.queue h k.queue :=
    hempty.timed.behaves.mp ⟨k, run, rfl⟩
  exact hrun.keeps (I := fun q => Tight k₀.layout q.slots) hempty.tight
    fun _ _ _ _ ht _ heq => slotStep_tight (show 0 < unitTime by decide) ht heq

theorem queue_items (k : Ring) : k.queue.slots.flatMap Slot.items = k.stored :=
  List.flatMap_map _ _ _

theorem timed_of_run (hempty : EmptyRing k₀) (run : GuardedRun ringStep Short k₀ h k) :
    Timed k ∧ SameRing k₀ k :=
  run.keeps (I := fun k => Timed k ∧ SameRing k₀ k) ⟨hempty.timed, ⟨rfl, rfl, rfl⟩⟩
    fun _ _ _ _ ht hc heq => ⟨ht.1.step hc heq, ht.2.trans (ringStep_same ht.1.toCircular heq)⟩

/-- In every run of short packets from `kfifo_init`, `kfifo_enqueue` refuses a short packet for
its bytes, or because the only node in use is being read, or when the packets of the ring and
the new one take more than half of the time of all nodes but one. -/
theorem refused_half_used (k₀ : Ring) (fifo : ℕ → Knode (List Skb)) {number : ℕ}
    (hnumber : 2 ≤ number) (rate : ℕ)
    (run : GuardedRun ringStep Short (kfifoInit (some fifo) number rate k₀).2 h k)
    (hshort : k.rate.l2tNs skb.pktLen < 2 ^ 31)
    (hrefused : kfifoEnqueue (some skb) k = .ok (.drop, k')) :
    k.totalLen < skb.pktLen + k.slen ∨ (0 < (k.node k.pwrite).pkt ∧ k.pwrite = k.pread) ∨
      (k.totalTime - 1) * unitTime < 2 * (timeOf k.rate k.stored + k.rate.l2tNs skb.pktLen) := by
  have hempty := kfifoInit_empty k₀ fifo hnumber rate
  obtain ⟨ht, hsame⟩ := timed_of_run hempty run
  have htight := hempty.tight_of_run run
  rw [← hsame.layout] at htight
  obtain ⟨stored, hpush, hret⟩ := ht.push_eq hshort hrefused
  cases stored with
  | true => cases hret
  | false =>
    have hwhy := htight.refused (a := skb) (congrArg Prod.fst hpush)
    rw [busy_iff ht.toRingInv, queue_items] at hwhy
    exact hwhy

theorem refused_half_used_sample :
    ∃ k : Ring, k.stored = [skbSample 1 1500] ∧
      (k.totalLen < (skbSample 2 800).pktLen + k.slen ∨
        (0 < (k.node k.pwrite).pkt ∧ k.pwrite = k.pread) ∨
        (k.totalTime - 1) * unitTime <
          2 * (timeOf k.rate k.stored + k.rate.l2tNs (skbSample 2 800).pktLen)) := by
  obtain ⟨h, k, run, hk⟩ := exists_guardedRun_of_exec (C := Short)
    (fun k : Ring => (k.stored, k.rate.l2tNs 800, (kfifoEnqueue (some (skbSample 2 800)) k).map
      fun r => r.1)) (b := ([skbSample 1 1500], 800000, .ok .drop))
    (show (execGuarded ringStep Short ringSample [.enqueue (skbSample 1 1500)]).map _ = _ by
      decide +kernel)
  obtain ⟨hstored, hrest⟩ := Prod.mk.inj hk
  obtain ⟨htime, hrefused⟩ := Prod.mk.inj hrest
  cases hout : kfifoEnqueue (some (skbSample 2 800)) k with
  | error e =>
    rw [hout] at hrefused
    cases hrefused
  | ok r =>
    obtain ⟨ret, k'⟩ := r
    rw [hout] at hrefused
    obtain rfl : ret = .drop := Except.ok.inj hrefused
    exact ⟨k, hstored, refused_half_used _ _ (by decide) _ run (htime.trans_lt (by decide)) hout⟩

end MeasurementLimiter
