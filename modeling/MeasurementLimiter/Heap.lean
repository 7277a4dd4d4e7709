import Mathlib

namespace MeasurementLimiter

/-- A memory `H` for blocks: `alloc` gives one that was not in use, and `free` is none exactly where
the block is not in use. -/
class Allocator (H : Type) where
  empty : H
  alloc : H → ℕ × H
  free : H → ℕ → Option H
  inUse : H → Finset ℕ
  inUse_empty : inUse empty = ∅
  alloc_fresh : ∀ h, (alloc h).1 ∉ inUse h
  inUse_alloc : ∀ h, inUse (alloc h).2 = insert (alloc h).1 (inUse h)
  free_isSome : ∀ h a, (free h a).isSome ↔ a ∈ inUse h
  inUse_free : ∀ h a h', free h a = some h' → inUse h' = (inUse h).erase a

namespace Allocator

variable {H : Type} [Allocator H] {h h' : H} {a : ℕ} {s t : Multiset ℕ}

def Owned (h : H) (s : Multiset ℕ) : Prop := (inUse h).val = s

theorem owned_empty : Owned (empty : H) 0 := by
  rw [Owned, inUse_empty, Finset.empty_val]

theorem Owned.mem_iff (o : Owned h s) : a ∈ inUse h ↔ a ∈ s := by
  rw [← o, Finset.mem_val]

theorem Owned.card_eq (o : Owned h s) : (inUse h).card = s.card := by
  rw [← o, Finset.card_val]

theorem Owned.fresh (o : Owned h s) : (alloc h).1 ∉ s :=
  fun hmem => alloc_fresh h (o.mem_iff.mpr hmem)

theorem Owned.alloc (o : Owned h s) : Owned (alloc h).2 ((alloc h).1 ::ₘ s) := by
  rw [Owned, inUse_alloc, Finset.insert_val_of_notMem (alloc_fresh h)]
  exact congrArg _ o

theorem Owned.free (o : Owned h (a ::ₘ s)) : ∃ h', free h a = some h' ∧ Owned h' s := by
  have hmem : a ∈ inUse h := o.mem_iff.mpr (Multiset.mem_cons_self a s)
  obtain ⟨h', hfree⟩ := Option.isSome_iff_exists.mp ((free_isSome h a).mpr hmem)
  refine ⟨h', hfree, ?_⟩
  rw [Owned, inUse_free h a h' hfree, Finset.erase_val, o, Multiset.erase_cons_head]

end Allocator

structure Heap where
  next : ℕ
  live : Finset ℕ
  lt_next : ∀ a ∈ live, a < next

instance : Allocator Heap where
  empty := ⟨0, ∅, fun _ h => absurd h (Finset.notMem_empty _)⟩
  alloc h := (h.next, ⟨h.next + 1, insert h.next h.live, fun a ha =>
    (Finset.mem_insert.mp ha).elim (fun heq => heq ▸ Nat.lt_succ_self _)
      fun ha => (h.lt_next a ha).trans (Nat.lt_succ_self _)⟩)
  free h a :=
    if a ∈ h.live then
      some ⟨h.next, h.live.erase a, fun b hb => h.lt_next b (Finset.mem_of_mem_erase hb)⟩
    else none
  inUse := Heap.live
  inUse_empty := rfl
  alloc_fresh h hmem := lt_irrefl _ (h.lt_next _ hmem)
  inUse_alloc _ := rfl
  free_isSome h a := by
    by_cases ha : a ∈ h.live
    · rw [if_pos ha]
      exact iff_of_true rfl ha
    · rw [if_neg ha]
      exact iff_of_false Bool.false_ne_true ha
  inUse_free h a h' hfree := by
    by_cases ha : a ∈ h.live
    · rw [if_pos ha] at hfree
      obtain rfl := Option.some.inj hfree
      rfl
    · rw [if_neg ha] at hfree
      cases hfree

end MeasurementLimiter
