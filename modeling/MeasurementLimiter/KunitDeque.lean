import MeasurementLimiter.Kunit
import MeasurementLimiter.Runs

namespace MeasurementLimiter

open Chains Runs

inductive KunitCall
  | enqueueTail (skb : Skb) (link : Option Skb)
  | enqueueHead (skb : Skb) (link : Option Skb)
  | dequeueHead
  deriving DecidableEq

def kunitStep (s : SkbLinks × KunitSkbHead) :
    KunitCall → Except Empty (Option Skb × SkbLinks × KunitSkbHead)
  | .enqueueTail skb link => .ok (none, kunitEnqueueTail skb (Function.update s.1 skb link) s.2)
  | .enqueueHead skb link => .ok (none, (kunitEnqueueHead skb (Function.update s.1 skb link) s.2).2)
  | .dequeueHead => .ok ((kunitDequeueHead s.1 s.2).1, s.1, (kunitDequeueHead s.1 s.2).2)

def dequeStep (l : List Skb) : KunitCall → Option Skb × List Skb
  | .enqueueTail skb _ => (none, l ++ [skb])
  | .enqueueHead skb _ => (none, skb :: l)
  | .dequeueHead => (l.head?, l.tail)

def dequeOf (cs : List KunitCall) : List Skb := cs.foldl (fun l c => (dequeStep l c).2) []

def KunitCall.skb : KunitCall → Option Skb
  | .enqueueTail skb _ => some skb
  | .enqueueHead skb _ => some skb
  | .dequeueHead => none

def EnqueuesApart (cs : List KunitCall) : Prop :=
  ∀ cs' c, cs' ++ [c] <+: cs → ∀ skb ∈ c.skb, skb ∉ dequeOf cs'

/-- The list after the operations of `h` is the deque: the last one returned what the deque
gives, and the links lead from the head through its packets to the tail and end there. -/
structure ActsAsDeque (h : List (KunitCall × Option Skb)) (s : SkbLinks × KunitSkbHead) :
    Prop where
  returned : ∀ h' c o, h = h' ++ [(c, o)] → o = (dequeStep (dequeOf (h'.map Prod.fst)) c).1
  head_eq_none : s.2.head = none ↔ dequeOf (h.map Prod.fst) = []
  tail_eq_none : s.2.tail = none ↔ dequeOf (h.map Prod.fst) = []
  holds : s.2.Holds s.1 (dequeOf (h.map Prod.fst))

def TailUnlinked (s : SkbLinks × KunitSkbHead) : KunitCall → Prop
  | .enqueueTail _ link => s.2.tail = none → link = none
  | _ => True

instance : ∀ s c, Decidable (TailUnlinked s c)
  | s, .enqueueTail _ link => inferInstanceAs (Decidable (s.2.tail = none → link = none))
  | _, .enqueueHead _ _ => .isTrue trivial
  | _, .dequeueHead => .isTrue trivial

variable {s s' : SkbLinks × KunitSkbHead} {c : KunitCall} {o : Option Skb} {l : List Skb}
  {h : List (KunitCall × Option Skb)}

@[simp] theorem dequeOf_concat (cs : List KunitCall) (c : KunitCall) :
    dequeOf (cs ++ [c]) = (dequeStep (dequeOf cs) c).2 := by
  rw [dequeOf, List.foldl_append]
  rfl

theorem enqueuesApart_nil : EnqueuesApart [] := by
  intro cs' c hp
  simp at hp

theorem EnqueuesApart.concat {cs : List KunitCall} (h : EnqueuesApart cs)
    (hskb : ∀ skb ∈ c.skb, skb ∉ dequeOf cs) : EnqueuesApart (cs ++ [c]) := by
  intro cs' c' hp
  rcases List.prefix_concat_iff.mp hp with heq | hp
  · obtain ⟨rfl, hlast⟩ := List.append_inj' heq rfl
    obtain rfl := List.singleton_inj.mp hlast
    exact hskb
  · exact h cs' c' hp

theorem dequeStep_nodup (hnodup : l.Nodup) (hapart : ∀ skb ∈ c.skb, skb ∉ l) :
    (dequeStep l c).2.Nodup := by
  cases c with
  | enqueueTail skb link =>
    rw [dequeStep, ← List.concat_eq_append]
    exact hnodup.concat (hapart skb rfl)
  | enqueueHead skb link => exact hnodup.cons (hapart skb rfl)
  | dequeueHead => exact hnodup.tail

/-- On a list that is a deque, an operation returns what the deque gives, and leaves the list
the deque unless it puts a linked packet into it alone. -/
theorem kunitStep_holds_iff (h : s.2.Holds s.1 l) (hnodup : l.Nodup)
    (hapart : ∀ skb ∈ c.skb, skb ∉ l) (hs : kunitStep s c = .ok (o, s')) :
    o = (dequeStep l c).1 ∧ (s'.2.Holds s'.1 (dequeStep l c).2 ↔ TailUnlinked s c) := by
  cases c with
  | enqueueTail skb link =>
    obtain ⟨rfl, rfl⟩ := Prod.mk.inj (Except.ok.inj hs)
    have hskb := hapart skb rfl
    have hiff := kunitEnqueueTail_holds_iff (Chain.update h hskb link) hnodup hskb
    rw [Function.update_self] at hiff
    exact ⟨rfl, hiff⟩
  | enqueueHead skb link =>
    obtain ⟨rfl, rfl⟩ := Prod.mk.inj (Except.ok.inj hs)
    have hskb := hapart skb rfl
    exact ⟨rfl, iff_of_true (kunitEnqueueHead_holds (Chain.update h hskb link) hskb) trivial⟩
  | dequeueHead =>
    obtain ⟨rfl, rfl⟩ := Prod.mk.inj (Except.ok.inj hs)
    obtain ⟨hhead, htail⟩ := kunitDequeueHead_holds h
    exact ⟨hhead, iff_of_true htail trivial⟩

theorem actsAsDeque_of_holds (hreturned : ∀ h' c o, h = h' ++ [(c, o)] →
    o = (dequeStep (dequeOf (h'.map Prod.fst)) c).1)
    (hholds : s.2.Holds s.1 (dequeOf (h.map Prod.fst))) : ActsAsDeque h s where
  returned := hreturned
  head_eq_none := by rw [hholds.head_eq, List.head?_eq_none_iff]
  tail_eq_none := by rw [hholds.tail_eq, List.getLast?_eq_none_iff]
  holds := hholds

/-- The list is the deque all along if and only if no linked packet is put at the tail of an
empty list. -/
theorem actsAsDeque_iff (next : SkbLinks) (run : Run kunitStep (next, kunitSkbHeadInit) h s)
    (hapart : EnqueuesApart (h.map Prod.fst)) :
    (∀ h' s', h' <+: h → Run kunitStep (next, kunitSkbHeadInit) h' s' → ActsAsDeque h' s') ↔
      GuardedRun kunitStep TailUnlinked (next, kunitSkbHeadInit) h s := by
  refine run.always_iff (I := ActsAsDeque) (J := fun h _ => (dequeOf (h.map Prod.fst)).Nodup)
    (D := fun h => EnqueuesApart (h.map Prod.fst)) ?_ ?_ List.nodup_nil ?_ hapart
  · intro h e hapart cs' c hp
    refine hapart cs' c (hp.trans ?_)
    rw [List.map_append]
    exact List.prefix_append _ _
  · exact actsAsDeque_of_holds (by simp) kunitSkbHeadInit_holds
  · intro h s c o s' hnodup _ hapart hs
    rw [List.map_append, List.map_singleton] at hapart
    have hskb := hapart _ c (List.prefix_refl _)
    rw [List.map_append, List.map_singleton, dequeOf_concat]
    refine ⟨dequeStep_nodup hnodup hskb, fun hI => ?_⟩
    obtain ⟨hreturned, hiff⟩ := kunitStep_holds_iff hI.holds hnodup hskb hs
    rw [← hiff]
    constructor
    · intro hI'
      simpa using hI'.holds
    · intro hholds
      refine actsAsDeque_of_holds ?_ (by simpa using hholds)
      intro h' c' o' heq
      obtain ⟨rfl, hlast⟩ := List.append_inj' heq rfl
      obtain ⟨rfl, rfl⟩ := Prod.mk.inj (List.singleton_inj.mp hlast)
      exact hreturned

def bothEnds : List KunitCall :=
  [.enqueueTail (skbSample 1 100) none, .enqueueTail (skbSample 2 100) none, .dequeueHead,
    .enqueueHead (skbSample 1 100) (some (skbSample 2 100)), .dequeueHead]

theorem actsAsDeque_iff_sample : ∃ h s, h.map Prod.fst = bothEnds ∧
    h.map Prod.snd = [none, none, some (skbSample 1 100), none, some (skbSample 1 100)] ∧
    ActsAsDeque h s := by
  have hapart : EnqueuesApart bothEnds :=
    ((((enqueuesApart_nil.concat (by decide)).concat (by decide)).concat (by decide)).concat
      (by decide)).concat (by decide)
  obtain ⟨⟨h, s⟩, hexec, hshow⟩ := Option.map_eq_some_iff.mp
    (show (execGuarded kunitStep TailUnlinked (fun _ => none, kunitSkbHeadInit) bothEnds).map
      (fun r => r.1) = some (bothEnds.zip
        [none, none, some (skbSample 1 100), none, some (skbSample 1 100)]) by decide)
  obtain rfl : h = _ := hshow
  have guarded := guardedRun_of_exec hexec
  have run := guarded.mono fun _ _ _ => trivial
  exact ⟨_, s, rfl, rfl, (actsAsDeque_iff _ run hapart).mpr guarded _ s (List.prefix_refl _) run⟩

/-- The first packet leaves linked to the second, and is put at the tail when both have left. -/
def relinked : List KunitCall :=
  [.enqueueTail (skbSample 1 100) none, .enqueueTail (skbSample 2 100) none, .dequeueHead,
    .dequeueHead, .enqueueTail (skbSample 1 100) (some (skbSample 2 100)), .dequeueHead,
    .dequeueHead]

def relinkedReturns : List (Option Skb) :=
  [none, none, some (skbSample 1 100), some (skbSample 2 100), none, some (skbSample 1 100),
    some (skbSample 2 100)]

/-- The link that the packet has kept brings the second one back. -/
theorem stale_link_returns :
    (∃ h s, Run kunitStep (fun _ => none, kunitSkbHeadInit) h s ∧
      h.map Prod.fst = relinked.take 4 ∧ s.1 (skbSample 1 100) = some (skbSample 2 100)) ∧
    (∃ h s, Run kunitStep (fun _ => none, kunitSkbHeadInit) h s ∧
      h.map Prod.fst = relinked ∧ h.map Prod.snd = relinkedReturns) ∧
    EnqueuesApart relinked ∧
    ¬∀ next h s, Run kunitStep (next, kunitSkbHeadInit) h s → EnqueuesApart (h.map Prod.fst) →
      ActsAsDeque h s := by
  have hapart : EnqueuesApart relinked :=
    ((((((enqueuesApart_nil.concat (by decide)).concat (by decide)).concat (by decide)).concat
      (by decide)).concat (by decide)).concat (by decide)).concat (by decide)
  have hleft : ∃ h s, Run kunitStep (fun _ => none, kunitSkbHeadInit) h s ∧
      h.map Prod.fst = relinked.take 4 ∧ s.1 (skbSample 1 100) = some (skbSample 2 100) := by
    obtain ⟨r, hexec, hshow⟩ := exists_ok (x := exec kunitStep
      (fun _ => none, kunitSkbHeadInit) (relinked.take 4))
      (fun r => (r.1.map Prod.fst, r.2.1 (skbSample 1 100)))
      (b := (relinked.take 4, some (skbSample 2 100))) (by decide)
    obtain ⟨hcalls, hlink⟩ := Prod.mk.inj hshow
    exact ⟨r.1, r.2, run_of_exec hexec, hcalls, hlink⟩
  have hback : ∃ h s, Run kunitStep (fun _ => none, kunitSkbHeadInit) h s ∧
      h.map Prod.fst = relinked ∧ h.map Prod.snd = relinkedReturns := by
    obtain ⟨r, hexec, hshow⟩ := exists_ok (x := exec kunitStep
      (fun _ => none, kunitSkbHeadInit) relinked)
      (fun r => (r.1.map Prod.fst, r.1.map Prod.snd)) (b := (relinked, relinkedReturns)) (by decide)
    obtain ⟨hcalls, hreturns⟩ := Prod.mk.inj hshow
    exact ⟨r.1, r.2, run_of_exec hexec, hcalls, hreturns⟩
  refine ⟨hleft, hback, hapart, ?_⟩
  intro hall
  obtain ⟨h, s, run, hcalls, hreturns⟩ := hback
  have hlast := (hall _ h s run (hcalls ▸ hapart)).returned (relinked.zip (relinkedReturns.take 6))
    .dequeueHead (some (skbSample 2 100)) (by rw [List.zip_of_prod hcalls hreturns]; rfl)
  exact absurd hlast (by decide)

end MeasurementLimiter
