import MeasurementLimiter.Kfifo
import MeasurementLimiter.Cyclic

namespace MeasurementLimiter

open Cyclic

variable {M U : Type} {k : Kfifo M U} {skb : Skb}

/-- The nodes are linked into one circle and both pointers are on it. -/
structure Circular (k : Kfifo M U) : Prop where
  two_le : 2 ≤ k.totalTime
  next_eq : ∀ i < k.totalTime, (k.node i).next = some (shift k.totalTime i 1)
  pread_lt : k.pread < k.totalTime
  pwrite_lt : k.pwrite < k.totalTime

def Kfifo.pos (k : Kfifo M U) (j : ℕ) : ℕ := shift k.totalTime k.pread j

def Kfifo.nth (k : Kfifo M U) (j : ℕ) : Knode U := k.node (k.pos j)

def Kfifo.span (k : Kfifo M U) : ℕ := gap k.totalTime k.pread k.pwrite

theorem Circular.span_lt (h : Circular k) : k.span < k.totalTime := gap_lt h.pwrite_lt

theorem Circular.pos_lt (h : Circular k) {j : ℕ} (hj : j ≤ k.totalTime) : k.pos j < k.totalTime :=
  shift_lt h.pread_lt hj

theorem Circular.pos_span (h : Circular k) : k.pos k.span = k.pwrite :=
  shift_gap h.pread_lt h.pwrite_lt

theorem Circular.pos_zero (h : Circular k) : k.pos 0 = k.pread := shift_zero h.pread_lt

theorem Circular.nth_zero (h : Circular k) : k.nth 0 = k.node k.pread := by
  rw [Kfifo.nth, h.pos_zero]

theorem Circular.nth_span (h : Circular k) : k.nth k.span = k.node k.pwrite := by
  rw [Kfifo.nth, h.pos_span]

theorem Circular.span_eq_zero (h : Circular k) : k.span = 0 ↔ k.pread = k.pwrite :=
  gap_eq_zero h.pread_lt

theorem Circular.lap_eq (h : Circular k) :
    lap k.totalTime k.pwrite k.pread = k.totalTime - k.span := by
  have := lap_add_gap h.pwrite_lt h.pread_lt
  unfold Kfifo.span
  omega

theorem Circular.forall_node (h : Circular k) {P : Knode U → Prop}
    (hP : ∀ j < k.totalTime, P (k.nth j)) {i : ℕ} (hi : i < k.totalTime) : P (k.node i) := by
  obtain ⟨j, hj, rfl⟩ := exists_shift h.pread_lt hi
  exact hP j hj

def Kfifo.follow (k : Kfifo M U) : ℕ → Option ℕ
  | 0 => some k.pread
  | j + 1 => (k.follow j).bind fun i => (k.node i).next

theorem Circular.follow_eq (h : Circular k) {j : ℕ} (hj : j ≤ k.totalTime) :
    k.follow j = some (k.pos j) := by
  induction j with
  | zero => rw [Kfifo.follow, h.pos_zero]
  | succ j ih =>
    rw [Kfifo.follow, ih (by omega), Option.bind_some, h.next_eq _ (h.pos_lt (by omega))]
    exact congrArg some (shift_shift h.pread_lt hj)

theorem Circular.eq_span (h : Circular k) {d : ℕ} (hd : d < k.totalTime)
    (hw : k.follow d = some k.pwrite) : d = k.span := by
  rw [h.follow_eq hd.le, ← h.pos_span] at hw
  exact (shift_inj hd h.span_lt).mp (Option.some.inj hw)

theorem Circular.filterMap_follow (h : Circular k) {l : List ℕ} (hl : ∀ j ∈ l, j ≤ k.totalTime) :
    l.filterMap k.follow = l.map k.pos := by
  rw [← List.filterMap_eq_map]
  exact List.filterMap_congr fun j hj => h.follow_eq (hl j hj)

@[simp] theorem modify_node_self (i : ℕ) (f : Knode U → Knode U) :
    (k.modify i f).node i = f (k.node i) := by
  simp [Kfifo.modify]

theorem modify_node (i j : ℕ) (f : Knode U → Knode U) :
    (k.modify i f).node j = if j = i then f (k.node i) else k.node j := by
  simp [Kfifo.modify, Function.update_apply]

theorem Circular.modify (h : Circular k) (i : ℕ) {f : Knode U → Knode U}
    (hf : ∀ n, (f n).next = n.next) : Circular (k.modify i f) := by
  refine ⟨h.two_le, fun j hj => ?_, h.pread_lt, h.pwrite_lt⟩
  rw [modify_node]
  split_ifs with hji
  · rw [hf, ← hji]
    exact h.next_eq j hj
  · exact h.next_eq j hj

theorem nth_modify {d j : ℕ} (hd : d < k.totalTime)
    (hj : j < k.totalTime) (f : Knode U → Knode U) :
    (k.modify (k.pos d) f).nth j = if j = d then f (k.nth d) else k.nth j := by
  change (k.modify (k.pos d) f).node (k.pos j) = _
  rw [modify_node]
  by_cases hjd : j = d
  · simp [hjd, Kfifo.nth]
  · have hne : k.pos j ≠ k.pos d := fun he => hjd ((shift_inj hj hd).mp he)
    simp [hne, hjd, Kfifo.nth]

theorem kfifoWrConflictLoop_eq (h : Circular k) (t : ℕ) {i : ℕ} (hi : i < k.totalTime) :
    kfifoWrConflictLoop k (some i) t = .ok (decide (lap k.totalTime i k.pread ≤ t)) := by
  induction t generalizing i with
  | zero =>
    have := lap_pos (k := k.pread) hi
    simp [kfifoWrConflictLoop]
    omega
  | succ t ih =>
    have hone : 1 ≤ k.totalTime := by have := h.two_le; omega
    simp only [kfifoWrConflictLoop, h.next_eq i hi, Option.some.injEq]
    split_ifs with hmeet
    · have := (lap_eq_one hi h.pread_lt).mpr hmeet
      simp [this]
    · rw [ih (shift_lt hi hone)]
      have := lap_shift_one hi h.pread_lt hmeet
      congr 2
      exact propext (by omega)

theorem kfifoWrConflict_eq (h : Circular k) (step : ℤ) :
    kfifoWrConflict k step = .ok (decide
      ((0 < (k.node k.pwrite).pkt ∧ k.pwrite = k.pread) ∨ k.totalTime ≤ k.span + step.toNat)) := by
  have hspan := h.span_lt
  unfold kfifoWrConflict
  split_ifs with hfull
  · rw [decide_eq_true (.inl hfull)]
  · rw [kfifoWrConflictLoop_eq h _ h.pwrite_lt, h.lap_eq]
    congr 2
    exact propext ⟨fun hle => .inr (by omega), fun hor => by
      rcases hor with hor | hor
      · exact absurd hor hfull
      · omega⟩

theorem Circular.write_at (h : Circular k) {i : ℕ} (hi : i < k.totalTime) :
    Circular { k with pwrite := i } :=
  ⟨h.two_le, h.next_eq, h.pread_lt, hi⟩

theorem Circular.read_at (h : Circular k) {i : ℕ} (hi : i < k.totalTime) :
    Circular { k with pread := i } :=
  ⟨h.two_le, h.next_eq, hi, h.pwrite_lt⟩

theorem kfifoWriteLoop_eq (h : Circular k) {t : ℕ} (ht : k.span + t < k.totalTime) :
    kfifoWriteLoop t k = (true, { k with pwrite := k.pos (k.span + t) }) := by
  -- on the number of nodes still to go; the reader is not met before the last
  induction t generalizing k with
  | zero => simp [kfifoWriteLoop, h.pos_span]
  | succ t ih =>
    have hone : 1 ≤ k.totalTime := by have := h.two_le; omega
    have hlt : shift k.totalTime k.pwrite 1 < k.totalTime := shift_lt h.pwrite_lt hone
    have hne : shift k.totalTime k.pwrite 1 ≠ k.pread := by
      intro he
      have := (lap_eq_one h.pwrite_lt h.pread_lt).mpr he
      have := h.lap_eq
      omega
    have h' := h.write_at hlt
    have hspan : ({ k with pwrite := shift k.totalTime k.pwrite 1 } : Kfifo M U).span =
        k.span + 1 :=
      gap_shift_right h.pread_lt h.pwrite_lt (show k.span + 1 < k.totalTime by omega)
    simp only [kfifoWriteLoop, h.next_eq _ h.pwrite_lt, if_neg hne]
    rw [ih h' (by rw [hspan]; change k.span + 1 + t < k.totalTime; omega), hspan]
    simp only [Kfifo.pos, add_assoc, add_comm 1 t]

/-- The write pointer moved on by `t` nodes, and `cost` taken from the time left there. -/
def Kfifo.advance (k : Kfifo M U) (t cost : ℕ) : Kfifo M U :=
  ({ k with pwrite := k.pos (k.span + t) } : Kfifo M U).modify (k.pos (k.span + t))
    fun n => { n with leftTime := usub 64 n.leftTime cost }

theorem kfifoWriteForward_eq (h : Circular k) {step : ℤ} {cost : ℕ}
    (ht : k.span + step.toNat < k.totalTime) :
    kfifoWriteForward k step cost = (true, k.advance step.toNat cost) := by
  simp only [kfifoWriteForward, kfifoWriteLoop_eq h ht]
  rfl

theorem Circular.span_next (h : Circular k) (hpos : 0 < k.span) :
    ({ k with pread := k.pos 1 } : Kfifo M U).span = k.span - 1 :=
  gap_shift_left h.pread_lt h.pwrite_lt hpos

theorem Circular.pos_next (h : Circular k) {j : ℕ} (hj : 1 + j ≤ k.totalTime) :
    ({ k with pread := k.pos 1 } : Kfifo M U).pos j = k.pos (1 + j) :=
  shift_shift h.pread_lt hj

theorem Circular.nth_next (h : Circular k) {j : ℕ} (hj : 1 + j ≤ k.totalTime) :
    ({ k with pread := k.pos 1 } : Kfifo M U).nth j = k.nth (1 + j) :=
  congrArg k.node (h.pos_next hj)

/-- The loop of `kfifo_read_forward` with the number of its steps, what it returns and the
ring it leaves. -/
inductive ReadSteps : Kfifo M U → ℕ → ℤ → Kfifo M U → Prop
  | found {k : Kfifo M U} : (k.node k.pread).pkt ≠ 0 → ReadSteps k 0 1 k
  | stop {k : Kfifo M U} {t : ℕ} : (k.node k.pread).pkt = 0 → (k.node k.pread).next = some t →
      t = k.pwrite → ReadSteps k 1 (if (k.node t).pkt = 0 then 0 else 1) { k with pread := t }
  | step {k k' : Kfifo M U} {t e : ℕ} {ret : ℤ} : (k.node k.pread).pkt = 0 →
      (k.node k.pread).next = some t → t ≠ k.pwrite → ReadSteps { k with pread := t } e ret k' →
      ReadSteps k (e + 1) ret k'

theorem ReadSteps.loop_eq {k' : Kfifo M U} {e fuel : ℕ} {ret : ℤ} (w : ReadSteps k e ret k')
    (hfuel : e < fuel) : kfifoReadLoop fuel k = .ok (ret, k') := by
  obtain ⟨fuel, rfl⟩ : ∃ f, fuel = f + 1 := ⟨fuel - 1, by omega⟩
  induction w generalizing fuel with
  | found hpkt => rw [kfifoReadLoop, if_neg hpkt]
  | stop hpkt hnext hw => simp only [kfifoReadLoop, hpkt, if_true, hnext, if_pos hw]
  | step hpkt hnext hw _ ih =>
    simp only [kfifoReadLoop, hpkt, if_true, hnext, if_neg hw]
    obtain ⟨fuel, rfl⟩ : ∃ f, fuel = f + 1 := ⟨fuel - 1, by omega⟩
    exact ih fuel (by omega)

theorem Circular.readSteps (h : Circular k) (hne : k.pread ≠ k.pwrite) :
    ∃ e ≤ k.span, (∀ j < e, (k.nth j).pkt = 0) ∧ (e = k.span ∨ 0 < (k.nth e).pkt) ∧
      ReadSteps k e (if (k.nth e).pkt = 0 then 0 else 1) { k with pread := k.pos e } := by
  generalize hd : k.span = d
  induction d generalizing k with
  | zero => exact absurd (h.span_eq_zero.mp hd) hne
  | succ d ih =>
    have hlt := h.span_lt
    have hpos : k.pos 1 < k.totalTime := h.pos_lt (by omega)
    have hnext : (k.node k.pread).next = some (k.pos 1) := h.next_eq _ h.pread_lt
    by_cases hpkt : (k.node k.pread).pkt = 0
    case neg =>
      refine ⟨0, Nat.zero_le _, fun j hj => absurd hj (Nat.not_lt_zero j), .inr ?_, ?_⟩
      · rw [h.nth_zero]
        exact Nat.pos_of_ne_zero hpkt
      · rw [h.nth_zero, h.pos_zero, if_neg hpkt]
        exact .found hpkt
    have hfirst : ∀ j < 1, (k.nth j).pkt = 0 := fun j hj => by
      rwa [show j = 0 by omega, h.nth_zero]
    by_cases hw : k.pos 1 = k.pwrite
    case pos =>
      have hone : k.span = 1 := by
        have := gap_shift h.pread_lt (show 1 < k.totalTime by omega)
        rwa [show shift k.totalTime k.pread 1 = k.pwrite from hw] at this
      exact ⟨1, by omega, hfirst, .inl (by omega), .stop hpkt hnext hw⟩
    have hspan := h.span_next (by omega)
    obtain ⟨e, hle, hall, hend, w⟩ := ih (h.read_at hpos) hw (by omega)
    rw [h.nth_next (by omega)] at hend w
    rw [h.pos_next (by omega)] at w
    refine ⟨1 + e, by omega, fun j hj => ?_, hend.imp (fun he => by omega) id, ?_⟩
    · rcases Nat.eq_zero_or_pos j with rfl | hjpos
      · exact hfirst 0 one_pos
      · have hj' := hall (j - 1) (by omega)
        rwa [h.nth_next (by omega), show 1 + (j - 1) = j by omega] at hj'
    · rw [Nat.add_comm] at w ⊢
      exact .step hpkt hnext hw w

theorem kfifoReadLoop_spec (fuel : ℕ) (h : Circular k) (hne : k.pread ≠ k.pwrite)
    (hpkt : (k.nth 0).pkt = 0) (hfuel : k.span < fuel) :
    ∃ e, 0 < e ∧ e ≤ k.span ∧ (∀ j < e, (k.nth j).pkt = 0) ∧ (e = k.span ∨ 0 < (k.nth e).pkt) ∧
      kfifoReadLoop fuel k =
        .ok (if (k.nth e).pkt = 0 then 0 else 1, { k with pread := k.pos e }) := by
  obtain ⟨e, hle, hall, hend, w⟩ := h.readSteps hne
  refine ⟨e, Nat.pos_of_ne_zero ?_, hle, hall, hend, w.loop_eq (by omega)⟩
  rintro rfl
  rcases hend with hspan | hfull
  · exact hne (h.span_eq_zero.mp hspan.symm)
  · omega

variable [Kunit M U]

/-- The links a packet of time `skbTime` that overruns the write node moves the write
pointer by, in 32-bit arithmetic. -/
def jumpLen (skbTime : ℕ) : ℕ := (wrapInt32 (skbStep skbTime + 1)).toNat

def jumpCost (skbTime : ℕ) : ℕ := toU64 (skbCostTime skbTime)

theorem wrapInt32_natCast {n : ℕ} (h : n < 2 ^ 31) : wrapInt32 n = n :=
  wrapInt32_of_mem (by omega) (by omega)

theorem skbStep_of_lt {skbTime : ℕ} (h : skbTime < 2 ^ 31) :
    skbStep skbTime = (skbTime / unitTime : ℕ) :=
  wrapInt32_natCast ((Nat.div_le_self _ _).trans_lt h)

theorem jumpLen_of_lt {skbTime : ℕ} (h : skbTime < 2 ^ 31) :
    jumpLen skbTime = skbTime / unitTime + 1 := by
  have hdiv : skbTime / unitTime + 1 < 2 ^ 31 := by
    unfold unitTime
    omega
  rw [jumpLen, skbStep_of_lt h, ← Nat.cast_succ, wrapInt32_natCast hdiv]
  rfl

theorem jumpCost_of_lt {skbTime : ℕ} (h : skbTime < 2 ^ 31) :
    jumpCost skbTime = skbTime % unitTime := by
  have hmul : skbTime / unitTime * unitTime ≤ skbTime := Nat.div_mul_le_self _ _
  have hmod : skbTime - skbTime / unitTime * unitTime = skbTime % unitTime := by
    rw [← Nat.mod_eq_sub_div_mul]
  have hlt : skbTime % unitTime < 2 ^ 31 := (Nat.mod_le _ _).trans_lt h
  rw [jumpCost, skbCostTime, skbStep_of_lt h, ← Nat.cast_mul, wrapInt32_natCast (hmul.trans_lt h),
    ← Nat.cast_sub hmul, hmod, wrapInt32_natCast hlt, toU64_of_mem (by omega) (by omega)]
  rfl

def Kfifo.store (k : Kfifo M U) (skb : Skb) (t cost : ℕ) : Kfifo M U :=
  kfifoPut (k.advance t cost) skb (k.rate.l2tNs skb.pktLen)

/-- When and where `kfifo_enqueue` stores a packet: here, or `t` links ahead. -/
structure Landing (k : Kfifo M U) (skb : Skb) (t cost : ℕ) : Prop where
  room : skb.pktLen + k.slen ≤ k.totalLen
  free : ¬(0 < (k.node k.pwrite).pkt ∧ k.pwrite = k.pread)
  ahead : k.span + t < k.totalTime
  place : (t = 0 ∧ cost = k.rate.l2tNs skb.pktLen ∧
      k.rate.l2tNs skb.pktLen ≤ (k.node k.pwrite).leftTime) ∨
    (t = jumpLen (k.rate.l2tNs skb.pktLen) ∧ cost = jumpCost (k.rate.l2tNs skb.pktLen) ∧
      (k.node k.pwrite).leftTime < k.rate.l2tNs skb.pktLen)

theorem kfifoJump_eq (h : Circular k) (skbTime : ℕ) (step : ℤ) (cost : ℕ) :
    kfifoJump k skb skbTime step cost =
      if (0 < (k.node k.pwrite).pkt ∧ k.pwrite = k.pread) ∨ k.totalTime ≤ k.span + step.toNat
      then .ok (.drop, k)
      else .ok (.success, kfifoPut (k.advance step.toNat cost) skb skbTime) := by
  unfold kfifoJump
  rw [kfifoWrConflict_eq h]
  split_ifs with hconf
  · rw [decide_eq_true hconf]
  · have hahead := not_le.mp fun hle => hconf (.inr hle)
    rw [decide_eq_false hconf, kfifoWriteForward_eq h hahead]

theorem kfifoStay_eq (h : Circular k) (skbTime : ℕ) :
    kfifoStay k skb skbTime =
      if 0 < (k.node k.pwrite).pkt ∧ k.pwrite = k.pread then .ok (.drop, k)
      else .ok (.success, kfifoPut (k.advance 0 skbTime) skb skbTime) := by
  have hspan := h.span_lt
  unfold kfifoStay
  rw [kfifoWrConflict_eq h]
  split_ifs with hfull
  · rw [decide_eq_true (.inl hfull)]
  · rw [decide_eq_false (by simp only [Int.toNat_zero]; omega), Kfifo.advance, Nat.add_zero,
      h.pos_span]

omit [Kunit M U] in
theorem Landing.unique {t t' cost cost' : ℕ} (l : Landing k skb t cost)
    (l' : Landing k skb t' cost') : t = t' ∧ cost = cost' := by
  have h := l.place
  have h' := l'.place
  omega

/-- On a circular ring `kfifo_enqueue` refuses the packet and changes nothing, where it
has no place to land, or it stores the packet. -/
theorem kfifoEnqueue_cases (h : Circular k) (skb : Skb) :
    (kfifoEnqueue (some skb) k = .ok (.drop, k) ∧ ∀ t cost, ¬Landing k skb t cost) ∨
      ∃ t cost, Landing k skb t cost ∧
        kfifoEnqueue (some skb) k = .ok (.success, k.store skb t cost) := by
  have hspan := h.span_lt
  simp only [kfifoEnqueue, kfifoJump_eq h, kfifoStay_eq h]
  -- a packet that does not fit in the read pointer's node jumps, one that fits stays
  split_ifs with hroom hleft hconf hconf
  · refine .inl ⟨rfl, fun t cost l => ?_⟩
    have := l.room
    omega
  · refine .inl ⟨rfl, fun t cost l => ?_⟩
    rcases hconf with hfull | hmeet
    · exact l.free hfull
    · have hahead := l.ahead
      rcases l.place with ⟨-, -, hle⟩ | ⟨ht, -, -⟩
      · omega
      · rw [ht, jumpLen] at hahead
        omega
  · have hahead := not_le.mp fun hle => hconf (.inr hle)
    exact .inr ⟨_, _, ⟨not_lt.mp hroom, fun hfull => hconf (.inl hfull), hahead,
      .inr ⟨rfl, rfl, hleft⟩⟩, rfl⟩
  · exact .inl ⟨rfl, fun t cost l => l.free hconf⟩
  · exact .inr ⟨0, _, ⟨not_lt.mp hroom, hconf, hspan, .inl ⟨rfl, rfl, not_lt.mp hleft⟩⟩, rfl⟩

theorem Landing.enqueue_eq {t cost : ℕ} (l : Landing k skb t cost) (h : Circular k) :
    kfifoEnqueue (some skb) k = .ok (.success, k.store skb t cost) := by
  rcases kfifoEnqueue_cases h skb with ⟨-, hno⟩ | ⟨t', cost', l', heq⟩
  · exact absurd l (hno t cost)
  · obtain ⟨rfl, rfl⟩ := l.unique l'
    exact heq

section Store

variable {t cost : ℕ}

@[simp] theorem store_totalTime : (k.store skb t cost).totalTime = k.totalTime := rfl
@[simp] theorem store_totalLen : (k.store skb t cost).totalLen = k.totalLen := rfl
@[simp] theorem store_slen : (k.store skb t cost).slen = k.slen + skb.pktLen := rfl
@[simp] theorem store_pwrite : (k.store skb t cost).pwrite = k.pos (k.span + t) := rfl

def Knode.land (n : Knode U) (links : M) (skb : Skb) (skbTime cost : ℕ) : Knode U :=
  { n with
    leftTime := usub 64 n.leftTime cost, sleepTime := n.sleepTime + skbTime, pkt := n.pkt + 1
    slen := n.slen + skb.pktLen, kunit := (Kunit.enqueueTail skb links n.kunit).2 }

theorem store_node : (k.store skb t cost).node = (k.modify (k.pos (k.span + t))
    fun n => n.land k.links skb (k.rate.l2tNs skb.pktLen) cost).node := by
  simp [Kfifo.store, kfifoPut, Kfifo.advance, Kfifo.modify, Knode.land]

theorem store_links : (k.store skb t cost).links =
    (Kunit.enqueueTail skb k.links (k.nth (k.span + t)).kunit).1 := by
  simp [Kfifo.store, kfifoPut, Kfifo.advance, Kfifo.modify, Kfifo.nth]

theorem Circular.store (h : Circular k) (ht : k.span + t < k.totalTime) :
    Circular (k.store skb t cost) := by
  have hm := h.modify (k.pos (k.span + t))
    (f := fun n => n.land k.links skb (k.rate.l2tNs skb.pktLen) cost) fun _ => rfl
  refine ⟨h.two_le, fun i hi => ?_, h.pread_lt, h.pos_lt ht.le⟩
  rw [store_node]
  exact hm.next_eq i hi

theorem Circular.span_store (h : Circular k) (ht : k.span + t < k.totalTime) :
    (k.store skb t cost).span = k.span + t :=
  gap_shift h.pread_lt ht

theorem store_nth (ht : k.span + t < k.totalTime) {j : ℕ} (hj : j < k.totalTime) :
    (k.store skb t cost).nth j = if j = k.span + t then
      (k.nth (k.span + t)).land k.links skb (k.rate.l2tNs skb.pktLen) cost else k.nth j := by
  rw [Kfifo.nth, store_node]
  exact nth_modify ht hj _

end Store

def Kfifo.walk (k : Kfifo M U) (e : ℕ) : Kfifo M U := { k with pread := k.pos e }

/-- How `kfifo_dequeue` goes on a circular ring: the read pointer passes `e` drained
nodes that owe no time, and then a packet is taken, or none is there. -/
structure ReadWalk (k : Kfifo M U) (e : ℕ) : Prop where
  le_span : e ≤ k.span
  drained : ∀ j < e, (k.nth j).pkt = 0
  paid : 0 < e → (k.nth 0).sleepTime = 0

theorem kfifoDequeue_cases (h : Circular k) :
    ∃ e, ReadWalk k e ∧
      ((0 < (k.nth e).pkt ∧ kfifoDequeue k = .ok (kfifoTake (k.walk e))) ∨
        ((k.nth e).pkt = 0 ∧ kfifoDequeue k = .ok (none, k.walk e) ∧
          ((e = 0 ∧ k.Owes) ∨ (e = k.span ∧ ¬k.Owes)))) := by
  have hzero := h.nth_zero
  have hself : k.walk 0 = k := by rw [Kfifo.walk, h.pos_zero]
  by_cases hpkt : (k.node k.pread).pkt = 0
  · by_cases hsleep : 0 < (k.node k.pread).sleepTime
    · refine ⟨0, ⟨Nat.zero_le _, by simp, by simp⟩, .inr ⟨by rw [hzero, hpkt], ?_,
        .inl ⟨rfl, hpkt, hsleep⟩⟩⟩
      simp only [kfifoDequeue, hpkt, hsleep, if_true, hself]
    · have howes : ¬k.Owes := fun ho => hsleep ho.2
      have hpaid : (k.nth 0).sleepTime = 0 := by
        rw [hzero]
        exact Nat.eq_zero_of_not_pos hsleep
      by_cases hpw : k.pread = k.pwrite
      · have hspan : k.span = 0 := h.span_eq_zero.mpr hpw
        refine ⟨0, ⟨Nat.zero_le _, by simp, by simp⟩, .inr ⟨by rw [hzero, hpkt], ?_,
          .inr ⟨hspan.symm, howes⟩⟩⟩
        simp only [kfifoDequeue, kfifoReadForward, hpkt, hsleep, if_pos hpw, if_true, if_false,
          hself, ne_eq, zero_ne_one, not_false_eq_true]
      · obtain ⟨e, hpos, hle, hall, hend, hres⟩ := kfifoReadLoop_spec (k.totalTime + 1) h hpw
          (by rw [hzero, hpkt]) (by have := h.span_lt; omega)
        refine ⟨e, ⟨hle, hall, fun _ => hpaid⟩, ?_⟩
        by_cases hlast : (k.nth e).pkt = 0
        · refine .inr ⟨hlast, ?_, .inr ⟨hend.resolve_right (by omega), howes⟩⟩
          simp [kfifoDequeue, kfifoReadForward, hpkt, hsleep, hpw, hres, hlast, Kfifo.walk]
        · refine .inl ⟨Nat.pos_of_ne_zero hlast, ?_⟩
          simp [kfifoDequeue, kfifoReadForward, hpkt, hsleep, hpw, hres, hlast, Kfifo.walk]
  · refine ⟨0, ⟨Nat.zero_le _, by simp, by simp⟩, .inl ⟨?_, ?_⟩⟩
    · rw [hzero]
      exact Nat.pos_of_ne_zero hpkt
    · simp only [kfifoDequeue, hpkt, if_false, hself]

structure SameRing (k k' : Kfifo M U) : Prop where
  totalTime : k'.totalTime = k.totalTime
  totalLen : k'.totalLen = k.totalLen
  rate : k'.rate = k.rate

theorem kfifoTake_same (k : Kfifo M U) : SameRing k (kfifoTake k).2 := by
  unfold kfifoTake
  split <;> exact ⟨rfl, rfl, rfl⟩

theorem kfifoFinish_same (k : Kfifo M U) : SameRing k (kfifoFinish k).2 := by
  unfold kfifoFinish
  split <;> exact ⟨rfl, rfl, rfl⟩

theorem kfifoEnqueue_same (h : Circular k) {k' : Kfifo M U} {ret : NetXmit}
    (heq : kfifoEnqueue (some skb) k = .ok (ret, k')) : SameRing k k' := by
  rcases kfifoEnqueue_cases h skb with ⟨hd, -⟩ | ⟨t, cost, -, hs⟩
  · rw [hd] at heq
    cases heq
    exact ⟨rfl, rfl, rfl⟩
  · rw [hs] at heq
    cases heq
    exact ⟨rfl, rfl, rfl⟩

theorem Circular.of_enqueue (h : Circular k) {k' : Kfifo M U} {ret : NetXmit}
    (heq : kfifoEnqueue (some skb) k = .ok (ret, k')) : Circular k' := by
  rcases kfifoEnqueue_cases h skb with ⟨hd, -⟩ | ⟨t, cost, l, hs⟩
  · rw [hd] at heq
    exact (Prod.mk.inj (Except.ok.inj heq)).2 ▸ h
  · rw [hs] at heq
    exact (Prod.mk.inj (Except.ok.inj heq)).2 ▸ h.store l.ahead

theorem Circular.refused (h : Circular k) {k' : Kfifo M U} {ret : NetXmit}
    (heq : kfifoEnqueue (some skb) k = .ok (ret, k')) (hne : ret ≠ .success) : k' = k := by
  rcases kfifoEnqueue_cases h skb with ⟨hd, -⟩ | ⟨t, cost, l, hs⟩
  · rw [hd] at heq
    exact (Prod.mk.inj (Except.ok.inj heq)).2.symm
  · rw [hs] at heq
    exact absurd (Prod.mk.inj (Except.ok.inj heq)).1.symm hne

theorem kfifoDequeue_same (h : Circular k) {k' : Kfifo M U} {o : Option Skb}
    (heq : kfifoDequeue k = .ok (o, k')) : SameRing k k' := by
  obtain ⟨e, -, ⟨-, hd⟩ | ⟨-, hd, -⟩⟩ := kfifoDequeue_cases h
  · have hs := kfifoTake_same (k.walk e)
    rw [hd] at heq
    rw [Except.ok.inj heq] at hs
    exact ⟨hs.totalTime, hs.totalLen, hs.rate⟩
  · rw [hd] at heq
    cases heq
    exact ⟨rfl, rfl, rfl⟩

theorem Circular.step_ok (h : Circular k) (c : RingCall) : ∃ a k', ringStep k c = .ok (a, k') := by
  cases c with
  | enqueue skb =>
    rcases kfifoEnqueue_cases h skb with ⟨he, -⟩ | ⟨t, cost, -, he⟩
    · exact ⟨_, _, ringStep_enqueue he⟩
    · exact ⟨_, _, ringStep_enqueue he⟩
  | dequeue =>
    obtain ⟨e, -, ⟨-, hd⟩ | ⟨-, hd, -⟩⟩ := kfifoDequeue_cases h
    · exact ⟨_, _, ringStep_dequeue hd⟩
    · exact ⟨_, _, ringStep_dequeue hd⟩
  | finish => exact ⟨_, _, ringStep_finish k⟩

theorem ringStep_same (h : Circular k) {k' : Kfifo M U} {c : RingCall} {a : RingAnswer}
    (heq : ringStep k c = .ok (a, k')) : SameRing k k' := by
  cases c with
  | enqueue skb =>
    simp only [ringStep] at heq
    split at heq
    · cases heq
    · rename_i he
      cases heq
      exact kfifoEnqueue_same h he
  | dequeue =>
    simp only [ringStep] at heq
    split at heq
    · cases heq
    · rename_i he
      cases heq
      exact kfifoDequeue_same h he
  | finish =>
    have hs := kfifoFinish_same k
    rw [ringStep_finish] at heq
    rwa [(Prod.mk.inj (Except.ok.inj heq)).2] at hs

end MeasurementLimiter
