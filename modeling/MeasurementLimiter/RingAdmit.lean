import MeasurementLimiter.RingLinked

namespace MeasurementLimiter

open Cyclic Runs

variable {M U : Type} {k : Kfifo M U} {skb : Skb}

def Kfifo.ahead (k : Kfifo M U) : ℕ → Option ℕ
  | 0 => some k.pwrite
  | j + 1 => (k.ahead j).bind fun i => (k.node i).next

def Kfifo.MeetsRead (k : Kfifo M U) (n : ℕ) : Prop := ∃ j, 0 < j ∧ j ≤ n ∧ k.ahead j = some k.pread

theorem Circular.ahead_eq (h : Circular k) {j : ℕ} (hj : j ≤ k.totalTime) :
    k.ahead j = some (shift k.totalTime k.pwrite j) := by
  induction j with
  | zero => rw [Kfifo.ahead, shift_zero h.pwrite_lt]
  | succ j ih =>
    have hlt : shift k.totalTime k.pwrite j < k.totalTime := shift_lt h.pwrite_lt (by omega)
    rw [Kfifo.ahead, ih (by omega), Option.bind_some, h.next_eq _ hlt]
    exact congrArg some (shift_shift h.pwrite_lt hj)

theorem Circular.ahead_pos (h : Circular k) {j : ℕ} (hj : k.span + j ≤ k.totalTime) :
    k.ahead j = some (k.pos (k.span + j)) := by
  have hlap : shift k.totalTime k.pwrite j = k.pos (k.span + j) := by
    rw [Kfifo.pos, ← shift_shift h.pread_lt hj]
    exact congrArg (shift k.totalTime · j) h.pos_span.symm
  rw [h.ahead_eq (by omega), hlap]

theorem Circular.meetsRead_iff (h : Circular k) (n : ℕ) :
    k.MeetsRead n ↔ k.totalTime ≤ k.span + n := by
  have hspan := h.span_lt
  constructor
  · rintro ⟨j, hpos, hle, hmeet⟩
    by_contra hfar
    have hlt : k.span + j < k.totalTime := by omega
    rw [h.ahead_pos hlt.le, Option.some.injEq, ← h.pos_zero] at hmeet
    have := (shift_inj hlt (by omega)).mp hmeet
    omega
  · intro hle
    refine ⟨k.totalTime - k.span, by omega, by omega, ?_⟩
    rw [h.ahead_pos (by omega), Nat.add_sub_cancel' hspan.le]
    exact congrArg some shift_lap

theorem Circular.forward_of_noConflict (h : Circular k) {step : ℤ} (cost : ℕ)
    (hfree : kfifoWrConflict k step = .ok false) :
    k.span + step.toNat < k.totalTime ∧
      kfifoWriteForward k step cost = (true, k.advance step.toNat cost) := by
  have hahead : k.span + step.toNat < k.totalTime := by
    rw [kfifoWrConflict_eq h, Except.ok.injEq, decide_eq_false_iff_not] at hfree
    exact not_le.mp fun hle => hfree (.inr hle)
  exact ⟨hahead, kfifoWriteForward_eq h hahead⟩

/-- `kfifo_enqueue` that answers `NET_XMIT_DROP` changes no field of the ring.  After
`kfifo_wr_conflict` returned 0 the walk of `kfifo_write_forward` cannot fail: it moves the
write pointer by exactly as many nodes, and the read pointer is none of them. -/
theorem refused_untouched [Kunit M U] (h : Circular k) (skb : Skb) :
    (∀ k', kfifoEnqueue (some skb) k = .ok (.drop, k') → k' = k) ∧
      ∀ step cost, kfifoWrConflict k step = .ok false →
        ∃ k', kfifoWriteForward k step cost = (true, k') ∧
          k.ahead step.toNat = some k'.pwrite ∧
          ∀ j, 0 < j → j ≤ step.toNat → k.ahead j ≠ some k.pread := by
  refine ⟨fun k' heq => h.refused heq (by decide), fun step cost hfree => ?_⟩
  obtain ⟨hahead, hforward⟩ := h.forward_of_noConflict cost hfree
  refine ⟨_, hforward, h.ahead_pos hahead.le, fun j hpos hle hmeet => ?_⟩
  have := (h.meetsRead_iff step.toNat).mp ⟨j, hpos, hle, hmeet⟩
  omega

theorem refused_untouched_sample :
    ∃ k', kfifoWriteForward linkedSample 2 500000 = (true, k') ∧
      linkedSample.ahead 2 = some k'.pwrite ∧
      ∀ j, 0 < j → j ≤ 2 → linkedSample.ahead j ≠ some linkedSample.pread :=
  (refused_untouched linkedSample_circular (skbSample 1 1500)).2 2 500000 rfl

theorem wrapInt32_ge (x : ℤ) : -2 ^ 31 ≤ wrapInt32 x := by
  unfold wrapInt32
  rw [Int.bmod_def]
  split_ifs <;> omega

theorem wrapInt32_le {x : ℤ} (h : -2 ^ 31 ≤ x) : wrapInt32 x ≤ x := by
  unfold wrapInt32
  rw [Int.bmod_def]
  split_ifs <;> omega

theorem jumpLen_le (skbTime : ℕ) : jumpLen skbTime ≤ skbTime / unitTime + 1 := by
  unfold jumpLen skbStep
  generalize skbTime / unitTime = n
  have hlow := wrapInt32_ge n
  have hstep : wrapInt32 n ≤ n := wrapInt32_le (by omega)
  have hnext : wrapInt32 (wrapInt32 n + 1) ≤ wrapInt32 n + 1 := wrapInt32_le (by omega)
  omega

def Kfifo.CaughtUp (k : Kfifo M U) : Prop := 0 < (k.node k.pwrite).pkt ∧ k.pwrite = k.pread

def Kfifo.Overruns (k : Kfifo M U) (skb : Skb) : Prop :=
  (k.node k.pwrite).leftTime < k.rate.l2tNs skb.pktLen ∧
    k.MeetsRead (k.rate.l2tNs skb.pktLen / unitTime + 1)

theorem Circular.overruns_of_refused (h : Circular k) (hroom : skb.pktLen + k.slen ≤ k.totalLen)
    (hfree : ¬k.CaughtUp) (hno : ∀ t cost, ¬Landing k skb t cost) : k.Overruns skb := by
  have hspan := h.span_lt
  have hover : (k.node k.pwrite).leftTime < k.rate.l2tNs skb.pktLen := by
    by_contra hfit
    exact hno 0 _ ⟨hroom, hfree, hspan, .inl ⟨rfl, rfl, not_lt.mp hfit⟩⟩
  refine ⟨hover, (h.meetsRead_iff _).mpr ?_⟩
  by_contra hfar
  have hjump := jumpLen_le (k.rate.l2tNs skb.pktLen)
  exact hno _ _ ⟨hroom, hfree, by omega, .inr ⟨rfl, rfl, hover⟩⟩

variable [Kunit M U]

/-- When a call does not suffer from the test for a caught up reader: it offers no packet
that the ring has the bytes for, the write node is empty or the reader is elsewhere, or
the packet takes more than the time of all nodes. -/
def Kfifo.Admits (k : Kfifo M U) : RingCall → Prop
  | .enqueue skb => skb.pktLen + k.slen ≤ k.totalLen → k.CaughtUp →
      (k.node k.pwrite).leftTime < k.rate.l2tNs skb.pktLen ∧
        k.totalTime ≤ k.rate.l2tNs skb.pktLen / unitTime + 1
  | _ => True

theorem Circular.of_take (h : Circular k) : Circular (kfifoTake k).2 := by
  unfold kfifoTake
  split
  · rename_i kunit _
    exact h.modify k.pread (f := fun n => { n with kunit := kunit }) fun _ => rfl
  · rename_i p kunit _
    have hm := h.modify k.pread (f := fun n => { n with
      pkt := usub 32 n.pkt 1, slen := usub 32 n.slen p.pktLen, kunit := kunit }) fun _ => rfl
    exact ⟨hm.two_le, hm.next_eq, hm.pread_lt, hm.pwrite_lt⟩

theorem Circular.of_step (h : Circular k) {k' : Kfifo M U} {c : RingCall} {a : RingAnswer}
    (heq : ringStep k c = .ok (a, k')) : Circular k' := by
  cases c with
  | enqueue skb =>
    simp only [ringStep] at heq
    split at heq
    · cases heq
    · rename_i he
      obtain ⟨-, rfl⟩ := Prod.mk.inj (Except.ok.inj heq)
      exact h.of_enqueue he
  | dequeue =>
    obtain ⟨e, w, hend⟩ := kfifoDequeue_cases h
    have hwalk : Circular (k.walk e) :=
      h.read_at (h.pos_lt (w.le_span.trans h.span_lt.le))
    rcases hend with ⟨-, hd⟩ | ⟨-, hd, -⟩
    · rw [ringStep_dequeue hd] at heq
      obtain ⟨-, rfl⟩ := Prod.mk.inj (Except.ok.inj heq)
      exact hwalk.of_take
    · rw [ringStep_dequeue hd] at heq
      obtain ⟨-, rfl⟩ := Prod.mk.inj (Except.ok.inj heq)
      exact hwalk
  | finish =>
    rw [ringStep_finish] at heq
    obtain ⟨-, rfl⟩ := Prod.mk.inj (Except.ok.inj heq)
    unfold kfifoFinish
    split
    · exact h.modify _ fun _ => rfl
    · exact h

/-- What a refusal asks for: the packet overruns the ring, if the ring has its bytes. -/
def RefusedRightly (k : Kfifo M U) (c : RingCall) (a : RingAnswer) (_ : Kfifo M U) : Prop :=
  ∀ skb, c = .enqueue skb → a = .verdict .drop → skb.pktLen + k.slen ≤ k.totalLen → k.Overruns skb

theorem Circular.refusedRightly_iff (h : Circular k) {k' : Kfifo M U} {c : RingCall}
    {a : RingAnswer} (heq : ringStep k c = .ok (a, k')) :
    RefusedRightly k c a k' ↔ k.Admits c := by
  cases c with
  | dequeue => exact ⟨fun _ => trivial, fun _ _ hc => nomatch hc⟩
  | finish => exact ⟨fun _ => trivial, fun _ _ hc => nomatch hc⟩
  | enqueue skb =>
    have hspan : k.CaughtUp → k.span = 0 := fun hfull => h.span_eq_zero.mpr hfull.2.symm
    constructor
    · intro hright hroom hfull
      rcases kfifoEnqueue_cases h skb with ⟨hd, -⟩ | ⟨t, cost, l, -⟩
      · rw [ringStep_enqueue hd] at heq
        obtain ⟨rfl, rfl⟩ := Prod.mk.inj (Except.ok.inj heq)
        obtain ⟨hover, hmeet⟩ := hright skb rfl rfl hroom
        rw [h.meetsRead_iff, hspan hfull, Nat.zero_add] at hmeet
        exact ⟨hover, hmeet⟩
      · exact absurd hfull l.free
    · rintro hadmit _ ⟨⟩ rfl hroom
      by_cases hfull : k.CaughtUp
      · obtain ⟨hover, hmeet⟩ := hadmit hroom hfull
        refine ⟨hover, (h.meetsRead_iff _).mpr ?_⟩
        rwa [hspan hfull, Nat.zero_add]
      · rcases kfifoEnqueue_cases h skb with ⟨-, hno⟩ | ⟨t, cost, -, hs⟩
        · exact h.overruns_of_refused hroom hfull hno
        · rw [ringStep_enqueue hs] at heq
          cases heq

/-- The runs in which every refused packet that the ring has the bytes for overruns the
ring are the runs in which no packet with a place meets the test for a caught up reader. -/
theorem admission_complete (k₀ : Kfifo M U) (fifo : ℕ → Knode U) {number : ℕ}
    (hnumber : 2 ≤ number) (rate : ℕ) {h : RingHistory}
    (run : Run ringStep (kfifoInit (some fifo) number rate k₀).2 h k) :
    (∀ h' k skb, h' ++ [(.enqueue skb, .verdict .drop)] <+: h →
      Run ringStep (kfifoInit (some fifo) number rate k₀).2 h' k →
      skb.pktLen + k.slen ≤ k.totalLen → k.Overruns skb) ↔
    GuardedRun ringStep Kfifo.Admits (kfifoInit (some fifo) number rate k₀).2 h k := by
  have hcirc := (kfifoInit_empty k₀ fifo hnumber rate).toCircular
  rw [← calls_iff_guarded (J := Circular) (P := RefusedRightly) hcirc
    (fun _ _ _ _ hk heq => hk.of_step heq) (fun _ _ _ _ hk heq => hk.refusedRightly_iff heq) run]
  constructor
  · rintro hright h' k c a k' hp run' - skb rfl rfl
    exact hright h' k skb hp run'
  · intro hright h' k skb hp run'
    obtain ⟨k', run''⟩ := run.truncate hp
    obtain ⟨k₁, run₁, -, heq⟩ := run''.last
    obtain rfl := run'.unique run₁
    exact hright h' k _ _ k' hp run' heq skb rfl rfl

theorem linkedSample_long :
    ringStep linkedSample (.enqueue (skbSample 1 2900)) = .ok (.verdict .drop, linkedSample) := by
  rcases kfifoEnqueue_cases linkedSample_circular (skbSample 1 2900) with ⟨hd, -⟩ | ⟨t, cost, l, -⟩
  · exact ringStep_enqueue hd
  · have hahead : 0 + t < 3 := l.ahead
    have hjump : jumpLen 2900000 = 3 := jumpLen_of_lt (by decide)
    have hplace := l.place
    change (t = 0 ∧ cost = 2900000 ∧ 2900000 ≤ 1000000) ∨ (t = jumpLen 2900000 ∧ _) at hplace
    omega

theorem admission_complete_sample : linkedSample.Overruns (skbSample 1 2900) :=
  (admission_complete _ _ (by decide) _ (.cons trivial linkedSample_long .nil)).mpr
    (.cons (fun _ hfull => absurd hfull.1 (by decide)) linkedSample_long .nil) [] linkedSample
    (skbSample 1 2900) (List.prefix_refl _) .nil (by decide)

theorem linkedSample_short : Landing linkedSample (skbSample 1 400) 0 400000 :=
  ⟨by decide, by decide, by decide, .inl ⟨rfl, rfl, by decide⟩⟩

/-- Two short packets for one node: the second is refused, though the ring has its bytes and
the node its time. -/
theorem caught_up_refused :
    let k := linkedSample.store (skbSample 1 400) 0 400000
    Run ringStep linkedSample [(.enqueue (skbSample 1 400), .verdict .success)] k ∧
      ringStep k (.enqueue (skbSample 2 400)) = .ok (.verdict .drop, k) ∧
      (skbSample 2 400).pktLen + k.slen ≤ k.totalLen ∧ ¬k.Overruns (skbSample 2 400) := by
  intro k
  have hcirc : Circular k := linkedSample_circular.store linkedSample_short.ahead
  have first : ringStep linkedSample (.enqueue (skbSample 1 400)) = .ok (.verdict .success, k) :=
    ringStep_enqueue (linkedSample_short.enqueue_eq linkedSample_circular)
  have hfull : k.CaughtUp := ⟨by decide, by decide⟩
  refine ⟨.cons trivial first .nil, ?_, by decide, fun hover => absurd hover.1 (by decide)⟩
  rcases kfifoEnqueue_cases hcirc (skbSample 2 400) with ⟨hd, -⟩ | ⟨t, cost, l, -⟩
  · exact ringStep_enqueue hd
  · exact absurd hfull l.free

end MeasurementLimiter
