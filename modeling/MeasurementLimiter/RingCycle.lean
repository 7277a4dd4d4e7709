import MeasurementLimiter.RingInvariant

namespace MeasurementLimiter

open Cyclic

variable {M U : Type} {n : ℕ}

/-- The next links lead through all `n` nodes in one cycle, and the prev links lead back. -/
def OneCycle (n : ℕ) (node : ℕ → Knode U) : Prop :=
  ∃ σ : Equiv.Perm (Fin n), σ.IsCycle ∧ σ.support = Finset.univ ∧
    ∀ i : Fin n, (node i).next = some (σ i).val ∧ (node i).prev = some (σ.symm i).val

/-- What `kfifo_read_forward` does: in `steps` steps of its loop, fewer than the ring has nodes,
the read pointer goes to the first node with packets or to the write pointer, and nothing else
changes. -/
structure ReadsForward (k : Kfifo M U) (steps : ℕ) (ret : ℤ) (k' : Kfifo M U) : Prop where
  runs : kfifoReadForward k = .ok (ret, k')
  loop : if k.pread = k.pwrite then steps = 0 else ReadSteps k steps ret k'
  steps_lt : steps < k.totalTime
  frame : k' = { k with pread := k'.pread }
  place : k.follow steps = some k'.pread
  stops : 0 < (k.node k'.pread).pkt ∨ k'.pread = k.pwrite
  first : ∀ j < steps, ∃ i, k.follow j = some i ∧ (k.node i).pkt = 0 ∧ i ≠ k.pwrite
  returns : ret = if k.pread ≠ k.pwrite ∧ 0 < (k.node k'.pread).pkt then 1 else 0

theorem finRotate_val (hn : 2 ≤ n) (i : Fin n) : (finRotate n i).val = shift n i 1 := by
  have hlt := i.isLt
  obtain ⟨m, rfl⟩ : ∃ m, n = m + 1 := ⟨n - 1, by omega⟩
  rw [coe_finRotate]
  unfold shift
  split_ifs with hlast hwrap hwrap
  · rw [hlast, Fin.val_last] at hwrap
    omega
  · rw [hlast, Fin.val_last]
    omega
  · rfl
  · exact absurd (Fin.ext (by rw [Fin.val_last]; omega)) hlast

theorem finRotate_symm_val (hn : 2 ≤ n) (i : Fin n) :
    ((finRotate n).symm i).val = if i.val = 0 then n - 1 else i.val - 1 := by
  have hlt := i.isLt
  have hprev : (if i.val = 0 then n - 1 else i.val - 1) < n := by split_ifs <;> omega
  have hback : (finRotate n).symm i = ⟨if i.val = 0 then n - 1 else i.val - 1, hprev⟩ := by
    rw [Equiv.symm_apply_eq]
    apply Fin.ext
    rw [finRotate_val hn]
    unfold shift
    dsimp only
    split_ifs <;> omega
  rw [hback]

theorem kfifoInit_links [Kunit M U] (hn : 2 ≤ n) (fifo : ℕ → Knode U) (rate : ℕ) (k : Kfifo M U)
    {i : ℕ} (hi : i < n) :
    ((kfifoInit (some fifo) n rate k).2.node i).next = some (shift n i 1) ∧
      ((kfifoInit (some fifo) n rate k).2.node i).prev =
        some (if i = 0 then n - 1 else i - 1) := by
  have hnodes := kfifoInitLinks_apply hn (kfifoInitNodes n fifo) hi
  simp only [kfifoInit, if_neg (not_lt.mpr hn), hnodes, and_self]

theorem kfifoInit_oneCycle [Kunit M U] (hn : 2 ≤ n) (fifo : ℕ → Knode U) (rate : ℕ)
    (k : Kfifo M U) : OneCycle n (kfifoInit (some fifo) n rate k).2.node := by
  refine ⟨finRotate n, isCycle_finRotate_of_le hn, support_finRotate_of_le hn, fun i => ?_⟩
  obtain ⟨hnext, hprev⟩ := kfifoInit_links hn fifo rate k i.isLt
  rw [hnext, hprev, finRotate_val hn, finRotate_symm_val hn]
  exact ⟨rfl, rfl⟩

theorem Circular.readsForward {k : Kfifo M U} (h : Circular k) :
    ∃ steps ret k', ReadsForward k steps ret k' := by
  have hspan := h.span_lt
  by_cases hne : k.pread = k.pwrite
  case pos =>
    exact ⟨0, 0, k, {
      runs := if_pos hne
      loop := by rw [if_pos hne]
      steps_lt := by omega
      frame := rfl
      place := rfl
      stops := .inr hne
      first := fun j hj => absurd hj (Nat.not_lt_zero j)
      returns := by simp [hne] }⟩
  obtain ⟨e, hle, hall, hend, steps⟩ := h.readSteps hne
  refine ⟨e, _, _, {
    runs := ?_
    loop := by rwa [if_neg hne]
    steps_lt := by omega
    frame := rfl
    place := h.follow_eq (show e ≤ k.totalTime by omega)
    stops := ?_
    first := ?_
    returns := ?_ }⟩
  · rw [kfifoReadForward, if_neg hne]
    exact steps.loop_eq (by omega)
  · rcases hend with rfl | hfull
    · exact .inr h.pos_span
    · exact .inl hfull
  · intro j hj
    refine ⟨k.pos j, h.follow_eq (by omega), hall j hj, ?_⟩
    rw [← h.pos_span]
    intro heq
    have hjspan := (shift_inj (by omega) hspan).mp heq
    omega
  · change _ = if k.pread ≠ k.pwrite ∧ 0 < (k.nth e).pkt then 1 else 0
    by_cases hpkt : (k.nth e).pkt = 0
    · simp [hpkt]
    · simp [hpkt, hne, Nat.pos_of_ne_zero hpkt]

/-- `kfifo_init` of at least two nodes links them into one cycle, and on a ring with these links
`kfifo_read_forward` ends from everywhere, in fewer steps than the ring has nodes. -/
theorem init_cycle_read_ends [Kunit M U] (hn : 2 ≤ n) (fifo : ℕ → Knode U) (rate : ℕ)
    (k₀ : Kfifo M U) :
    (kfifoInit (some fifo) n rate k₀).1 = 0 ∧
    OneCycle n (kfifoInit (some fifo) n rate k₀).2.node ∧
    ∀ k : Kfifo M U, k.totalTime = n →
      (∀ i < n, (k.node i).next = ((kfifoInit (some fifo) n rate k₀).2.node i).next) →
      k.pread < n → k.pwrite < n → ∃ steps ret k', ReadsForward k steps ret k' := by
  refine ⟨by simp [kfifoInit, not_lt.mpr hn], kfifoInit_oneCycle hn fifo rate k₀, ?_⟩
  rintro k rfl hnext hread hwrite
  have hcirc : Circular k := ⟨hn, fun i hi => (hnext i hi).trans
    (kfifoInit_links hn fifo rate k₀ hi).1, hread, hwrite⟩
  exact hcirc.readsForward

def twoNodes : Ring :=
  ⟨(), false, fun _ => ⟨0, 0, 0, 0, none, none, []⟩, 0, 0, 0, 0, 0, 1500,
    ⟨1000000, fun n => 1000 * n⟩⟩

def twoNodesLinked : Ring := (kfifoInit (some twoNodes.node) 2 1000000 twoNodes).2

theorem init_cycle_read_ends_sample : OneCycle 2 twoNodesLinked.node ∧
    ∃ steps ret k', ReadsForward { twoNodesLinked with pwrite := 1 } steps ret k' := by
  obtain ⟨-, hcycle, hread⟩ :=
    init_cycle_read_ends (le_refl 2) twoNodes.node 1000000 twoNodes
  exact ⟨hcycle, hread { twoNodesLinked with pwrite := 1 } rfl (fun _ _ => rfl) (by decide) (by decide)⟩

end MeasurementLimiter
