import MeasurementLimiter.RingAdmit
import MeasurementLimiter.RingTime

namespace MeasurementLimiter

open Runs

variable {M U : Type} {k : Kfifo M U} {skb : Skb}

def FitsInt (x : ℤ) : Prop := -2 ^ 31 ≤ x ∧ x < 2 ^ 31

/-- The values that `kfifo_enqueue` makes of a packet's time before it jumps are what they
are without a range, and the time is that of the whole steps and the cost. -/
structure ExactSteps (skbTime : ℕ) : Prop where
  step : FitsInt (skbTime / unitTime : ℕ)
  next : FitsInt (skbStep skbTime + 1)
  product : FitsInt (skbStep skbTime * unitTime)
  cost : FitsInt (skbTime - skbStep skbTime * unitTime)
  cost_nonneg : 0 ≤ skbCostTime skbTime
  cost_lt : skbCostTime skbTime < unitTime
  whole : (skbTime : ℤ) = skbStep skbTime * unitTime + skbCostTime skbTime

theorem skbStep_of_fits {skbTime : ℕ} (h : FitsInt (skbTime / unitTime : ℕ)) :
    skbStep skbTime = (skbTime / unitTime : ℕ) :=
  wrapInt32_of_mem h.1 h.2

theorem exactSteps_iff (skbTime : ℕ) : ExactSteps skbTime ↔ skbTime < 2148 * unitTime := by
  have hunit : unitTime = 1000000 := rfl
  have hdiv := Nat.div_add_mod skbTime unitTime
  have hmod := Nat.mod_lt skbTime unitTime_pos
  constructor
  · intro e
    have hproduct := e.product
    rw [skbStep_of_fits e.step] at hproduct
    obtain ⟨-, hlt⟩ := hproduct
    rw [hunit] at *
    omega
  · intro h
    have hsmall : FitsInt (skbTime / unitTime : ℕ) := by
      rw [hunit] at *
      exact ⟨by omega, by omega⟩
    have hstep := skbStep_of_fits hsmall
    have hproduct : FitsInt (skbStep skbTime * unitTime) := by
      rw [hstep, hunit] at *
      exact ⟨by omega, by omega⟩
    have hcost : (skbTime : ℤ) - skbStep skbTime * unitTime = (skbTime % unitTime : ℕ) := by
      rw [hstep, hunit] at *
      omega
    have hfits : FitsInt (skbTime - skbStep skbTime * unitTime) := by
      rw [hcost]
      rw [hunit] at *
      exact ⟨by omega, by omega⟩
    -- so neither the product nor the difference wraps
    have hvalue : skbCostTime skbTime = (skbTime % unitTime : ℕ) := by
      rw [skbCostTime, wrapInt32_of_mem hproduct.1 hproduct.2, wrapInt32_of_mem hfits.1 hfits.2,
        hcost]
    refine ⟨hsmall, ?_, hproduct, hfits, ?_, ?_, ?_⟩
    · rw [hstep, hunit] at *
      exact ⟨by omega, by omega⟩
    · rw [hvalue]
      exact Int.natCast_nonneg _
    · rw [hvalue]
      exact Int.ofNat_lt.mpr hmod
    · rw [hvalue, ← hcost]
      ring

variable [Kunit M U]

/-- A packet that the ring has the bytes for, that the write node cannot include and that
`kfifo_wr_conflict` lets pass takes less than 2148 units. -/
def Kfifo.StepsFit (k : Kfifo M U) : RingCall → Prop
  | .enqueue skb =>
    let skbTime := k.rate.l2tNs skb.pktLen
    skb.pktLen + k.slen ≤ k.totalLen → (k.node k.pwrite).leftTime < skbTime →
      kfifoWrConflict k (wrapInt32 (skbStep skbTime + 1)) = .ok false → skbTime < 2148 * unitTime
  | _ => True

def JumpsExactly (k : Kfifo M U) (c : RingCall) (a : RingAnswer) (_ : Kfifo M U) : Prop :=
  ∀ skb, c = .enqueue skb → a = .verdict .success →
    (k.node k.pwrite).leftTime < k.rate.l2tNs skb.pktLen → ExactSteps (k.rate.l2tNs skb.pktLen)

omit [Kunit M U] in
theorem Circular.noConflict_iff (h : Circular k) (step : ℤ) :
    kfifoWrConflict k step = .ok false ↔ ¬k.CaughtUp ∧ k.span + step.toNat < k.totalTime := by
  rw [kfifoWrConflict_eq h, Except.ok.injEq, decide_eq_false_iff_not, not_or, not_le]
  rfl

/-- A packet that the write node cannot include is stored when the ring has the bytes for it
and `kfifo_wr_conflict` lets it pass. -/
theorem Circular.jumps_iff (h : Circular k) {ret : NetXmit} {k' : Kfifo M U}
    (hleft : (k.node k.pwrite).leftTime < k.rate.l2tNs skb.pktLen)
    (heq : kfifoEnqueue (some skb) k = .ok (ret, k')) :
    ret = .success ↔ skb.pktLen + k.slen ≤ k.totalLen ∧
      kfifoWrConflict k (wrapInt32 (skbStep (k.rate.l2tNs skb.pktLen) + 1)) = .ok false := by
  rw [h.noConflict_iff]
  rcases kfifoEnqueue_cases h skb with ⟨hd, hno⟩ | ⟨t, cost, l, hs⟩
  · rw [hd] at heq
    obtain ⟨rfl, -⟩ := Prod.mk.inj (Except.ok.inj heq)
    refine ⟨nofun, fun ⟨hroom, hfree, hahead⟩ => ?_⟩
    exact absurd ⟨hroom, hfree, hahead, .inr ⟨rfl, rfl, hleft⟩⟩ (hno _ _)
  · rw [hs] at heq
    obtain ⟨rfl, -⟩ := Prod.mk.inj (Except.ok.inj heq)
    refine ⟨fun _ => ⟨l.room, l.free, ?_⟩, fun _ => rfl⟩
    have hahead := l.ahead
    rcases l.place with ⟨-, -, hle⟩ | ⟨ht, -, -⟩
    · omega
    · rw [ht] at hahead
      exact hahead

omit [Kunit M U] in
/-- A ring of at most 2148 nodes has no place for a packet whose steps leave the range, if
the number of its steps itself is in range. -/
theorem Circular.stepsFit (h : Circular k) (hshort : k.totalTime ≤ 2148)
    (hsteps : k.rate.l2tNs skb.pktLen / unitTime + 1 < 2 ^ 31) : k.StepsFit (.enqueue skb) := by
  intro hroom hleft hfree
  have hahead := ((h.noConflict_iff _).mp hfree).2
  have hstep : skbStep (k.rate.l2tNs skb.pktLen) = (k.rate.l2tNs skb.pktLen / unitTime : ℕ) :=
    wrapInt32_natCast (Nat.lt_of_succ_lt hsteps)
  have hnext : wrapInt32 (skbStep (k.rate.l2tNs skb.pktLen) + 1) =
      (k.rate.l2tNs skb.pktLen / unitTime + 1 : ℕ) := by
    rw [hstep]
    exact wrapInt32_natCast hsteps
  rw [hnext, Int.toNat_natCast] at hahead
  exact (Nat.div_lt_iff_lt_mul unitTime_pos).mp (by omega)

theorem Circular.jumpsExactly_iff (h : Circular k) {k' : Kfifo M U} {c : RingCall}
    {a : RingAnswer} (heq : ringStep k c = .ok (a, k')) :
    JumpsExactly k c a k' ↔ k.StepsFit c := by
  cases c with
  | dequeue => exact ⟨fun _ => trivial, fun _ _ hc => nomatch hc⟩
  | finish => exact ⟨fun _ => trivial, fun _ _ hc => nomatch hc⟩
  | enqueue skb =>
    simp only [ringStep] at heq
    split at heq
    · cases heq
    · rename_i ret k₁ he
      obtain ⟨rfl, rfl⟩ := Prod.mk.inj (Except.ok.inj heq)
      constructor
      · intro hjump hroom hleft hfree
        have hret := (h.jumps_iff hleft he).mpr ⟨hroom, hfree⟩
        exact (exactSteps_iff _).mp (hjump skb rfl (congrArg RingAnswer.verdict hret) hleft)
      · rintro hfit _ ⟨⟩ hret hleft
        obtain ⟨hroom, hfree⟩ := (h.jumps_iff hleft he).mp (RingAnswer.verdict.inj hret)
        exact (exactSteps_iff _).mpr (hfit hroom hleft hfree)

/-- The runs in which the step arithmetic of every stored packet is exact are the runs in which
no packet of 2148 units or more finds that many nodes ahead of the write pointer free. -/
theorem step_arithmetic_iff (k₀ : Kfifo M U) (fifo : ℕ → Knode U) {number : ℕ}
    (hnumber : 2 ≤ number) (rate : ℕ) {h : RingHistory}
    (run : Run ringStep (kfifoInit (some fifo) number rate k₀).2 h k) :
    (∀ h' k skb, h' ++ [(.enqueue skb, .verdict .success)] <+: h →
      Run ringStep (kfifoInit (some fifo) number rate k₀).2 h' k →
      (k.node k.pwrite).leftTime < k.rate.l2tNs skb.pktLen →
      ExactSteps (k.rate.l2tNs skb.pktLen)) ↔
    GuardedRun ringStep Kfifo.StepsFit (kfifoInit (some fifo) number rate k₀).2 h k := by
  have hcirc := (kfifoInit_empty k₀ fifo hnumber rate).toCircular
  rw [← calls_iff_guarded (J := Circular) (P := JumpsExactly) hcirc
    (fun _ _ _ _ hk heq => hk.of_step heq) (fun _ _ _ _ hk heq => hk.jumpsExactly_iff heq) run]
  constructor
  · rintro hexact h' k c a k' hp run' - skb rfl rfl
    exact hexact h' k skb hp run'
  · intro hexact h' k skb hp run'
    obtain ⟨k', run''⟩ := run.truncate hp
    obtain ⟨k₁, run₁, -, heq⟩ := run''.last
    obtain rfl := run'.unique run₁
    exact hexact h' k _ _ k' hp run' heq skb rfl rfl

theorem step_arithmetic_iff_sample : ExactSteps 1500000 :=
  (step_arithmetic_iff _ _ (by decide) _ (.cons trivial ringSample_jump .nil)).mpr
    (.cons (fun _ _ _ => show 1500000 < 2148 * unitTime by decide) ringSample_jump .nil) [] ringSample
    (skbSample 1 1500) (List.prefix_refl _) .nil (by decide)

def slowSample : Ring :=
  (kfifoInit (some fun _ => ⟨0, 0, 0, 0, none, none, []⟩) 2150 698
    ⟨(), false, fun _ => ⟨0, 0, 0, 0, none, none, []⟩, 0, 0, 0, 0, 0, 1500,
      ⟨698, fun len => len * 1000000000 / 698⟩⟩).2

/-- Its packet of 1500 bytes takes 2148 units and more, which is stored 2149 nodes ahead. -/
theorem step_product_overflows :
    ringStep slowSample (.enqueue (skbSample 1 1500)) = .ok (.verdict .success,
      slowSample.store (skbSample 1 1500) 2149 (jumpCost 2148997134)) ∧
      (slowSample.node slowSample.pwrite).leftTime < slowSample.rate.l2tNs 1500 ∧
      slowSample.rate.l2tNs 1500 = 2148997134 ∧ skbStep 2148997134 = 2148 ∧
      ¬FitsInt (2148 * unitTime) ∧ ¬ExactSteps 2148997134 := by
  have hempty : EmptyRing slowSample := kfifoInit_empty _ _ (by decide) _
  have htime : slowSample.rate.l2tNs 1500 = 2148997134 := by decide
  have hstep : skbStep 2148997134 = 2148 := skbStep_of_fits ⟨by decide, by decide⟩
  have hjump : jumpLen 2148997134 = 2149 := by
    rw [jumpLen, hstep]
    exact congrArg Int.toNat (wrapInt32_of_mem (by decide) (by decide))
  have hleft : (slowSample.node slowSample.pwrite).leftTime < slowSample.rate.l2tNs 1500 := by
    rw [htime, (hempty.fresh _ hempty.pwrite_lt).leftTime]
    decide
  have hspan : slowSample.span = 0 := hempty.span_eq_zero.mpr rfl
  have hfree : ¬slowSample.CaughtUp := by
    intro hfull
    have := hfull.1
    rw [(hempty.fresh _ hempty.pwrite_lt).pkt] at this
    exact absurd this (by decide)
  have l : Landing slowSample (skbSample 1 1500) 2149 (jumpCost 2148997134) := by
    refine ⟨by decide, hfree, ?_, .inr ⟨?_, ?_, hleft⟩⟩
    · rw [hspan]
      decide
    · exact hjump.symm.trans (congrArg jumpLen htime.symm)
    · exact congrArg jumpCost htime.symm
  refine ⟨ringStep_enqueue (l.enqueue_eq hempty.toCircular), hleft, htime, hstep, ?_, ?_⟩
  · rintro ⟨-, hlt⟩
    exact absurd hlt (by decide)
  · rw [exactSteps_iff]
    decide

end MeasurementLimiter
