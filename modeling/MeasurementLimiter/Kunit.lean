import MeasurementLimiter.Kernel
import MeasurementLimiter.Chains

namespace MeasurementLimiter

open Chains

abbrev SkbLinks := Skb → Option Skb

structure KunitSkbHead where
  head : Option Skb
  tail : Option Skb
  deriving DecidableEq

def kunitSkbHeadInit : KunitSkbHead := ⟨none, none⟩

/-- `kunit_enqueue_tail`, which writes `skb->next` only behind another packet. -/
def kunitEnqueueTail (skb : Skb) (next : SkbLinks) (kuh : KunitSkbHead) : SkbLinks × KunitSkbHead :=
  match kuh.tail with
  | some last =>
    (Function.update (Function.update next skb none) last (some skb), { kuh with tail := some skb })
  | none => (next, ⟨some skb, some skb⟩)

/-- `kunit_enqueue_head`, which always writes `skb->next`. -/
def kunitEnqueueHead (skb : Skb) (next : SkbLinks) (kuh : KunitSkbHead) :
    ℤ × SkbLinks × KunitSkbHead :=
  (0, Function.update next skb kuh.head,
    ⟨some skb, if kuh.head = none then some skb else kuh.tail⟩)

/-- `kunit_dequeue_head`, which leaves `skb->next` as it is. -/
def kunitDequeueHead (next : SkbLinks) (kuh : KunitSkbHead) : Option Skb × KunitSkbHead :=
  match kuh.head with
  | some skb =>
    let head := next skb
    (some skb, ⟨head, if head = none then none else kuh.tail⟩)
  | none => (none, kuh)

/-- The packet list operations of the ring, on a memory `M`. -/
class Kunit (M : outParam Type) (U : Type) where
  init : U
  enqueueTail : Skb → M → U → M × U
  dequeueHead : M → U → Option Skb × U

instance : Kunit SkbLinks KunitSkbHead where
  init := kunitSkbHeadInit
  enqueueTail := kunitEnqueueTail
  dequeueHead := kunitDequeueHead

instance : Kunit Unit (List Skb) where
  init := []
  enqueueTail skb _ l := ((), l ++ [skb])
  dequeueHead _ l := (l.head?, l.tail)

@[simp] theorem kunit_enqueueTail_list (skb : Skb) (u : Unit) (l : List Skb) :
    Kunit.enqueueTail skb u l = ((), l ++ [skb]) := rfl

@[simp] theorem kunit_dequeueHead_list (u : Unit) (l : List Skb) :
    Kunit.dequeueHead u l = (l.head?, l.tail) := rfl

variable {next : SkbLinks} {kuh : KunitSkbHead} {l : List Skb} {skb : Skb}

def KunitSkbHead.Holds (next : SkbLinks) (kuh : KunitSkbHead) (l : List Skb) : Prop :=
  Chain next kuh.head kuh.tail l

theorem kunitSkbHeadInit_holds : kunitSkbHeadInit.Holds next [] := chain_nil

theorem kunitEnqueueTail_frame (h : kuh.Holds next l) {p : Skb} (hp : p ≠ skb) (hl : p ∉ l) :
    (kunitEnqueueTail skb next kuh).1 p = next p := by
  unfold kunitEnqueueTail
  split
  · rename_i last hlast
    have hmem : last ∈ l := List.mem_of_getLast? (h.tail_eq ▸ hlast)
    have hne : p ≠ last := by
      rintro rfl
      exact hl hmem
    simp [hne, hp]
  · rfl

theorem kunitEnqueueTail_holds_iff (h : kuh.Holds next l) (hnodup : l.Nodup) (hskb : skb ∉ l) :
    (kunitEnqueueTail skb next kuh).2.Holds (kunitEnqueueTail skb next kuh).1 (l ++ [skb]) ↔
      (kuh.tail = none → next skb = none) := by
  unfold KunitSkbHead.Holds at h ⊢
  unfold kunitEnqueueTail
  split
  · rename_i last hlast
    rw [hlast] at h
    have hpush := (h.update hskb none).push hnodup hskb (Function.update_self skb none next)
    exact iff_of_true hpush fun hnone => absurd (hlast.symm.trans hnone) (Option.some_ne_none last)
  · rename_i hlast
    rw [hlast] at h
    obtain rfl := h.eq_nil_of_tail
    simpa [hlast] using chain_singleton_iff

theorem kunitEnqueueTail_holds (h : kuh.Holds next l) (hnodup : l.Nodup) (hskb : skb ∉ l)
    (hend : next skb = none) :
    (kunitEnqueueTail skb next kuh).2.Holds (kunitEnqueueTail skb next kuh).1 (l ++ [skb]) :=
  (kunitEnqueueTail_holds_iff h hnodup hskb).mpr fun _ => hend

theorem kunitEnqueueHead_holds (h : kuh.Holds next l) (hskb : skb ∉ l) :
    (kunitEnqueueHead skb next kuh).2.2.Holds (kunitEnqueueHead skb next kuh).2.1 (skb :: l) :=
  Chain.cons h hskb

theorem kunitDequeueHead_holds (h : kuh.Holds next l) :
    (kunitDequeueHead next kuh).1 = l.head? ∧ (kunitDequeueHead next kuh).2.Holds next l.tail := by
  unfold kunitDequeueHead
  split
  · rename_i skb hhead
    cases l with
    | nil => exact absurd (h.head_eq ▸ hhead) (by simp)
    | cons a l =>
      obtain rfl : skb = a := by simpa [hhead] using h.head_eq
      exact ⟨rfl, Chain.pop h⟩
  · rename_i hhead
    unfold KunitSkbHead.Holds at h
    rw [hhead] at h
    obtain rfl := h.eq_nil_of_head
    exact ⟨rfl, by simpa [KunitSkbHead.Holds, hhead] using h⟩

end MeasurementLimiter
