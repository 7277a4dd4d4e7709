import Mathlib

namespace MeasurementLimiter.SlotQueue

variable {α : Type*}

/-- The items of a slot, the time that they and those it gave take, and the time that is left
for more. -/
structure Slot (α : Type*) where
  items : List α
  time : ℕ
  left : ℕ
  deriving DecidableEq

/-- The length of a slot, the number of slots, the size that fits in all, and the time and the
size of an item. -/
structure Layout (α : Type*) where
  unit : ℕ
  count : ℕ
  room : ℕ
  time : α → ℕ
  size : α → ℕ

/-- The slots in use, from the one that is read to the one that is written, and the size of
what they have. -/
structure Queue (α : Type*) where
  slots : List (Slot α)
  size : ℕ
  deriving DecidableEq

namespace Layout

variable (L : Layout α)

def emptySlot : Slot α := ⟨[], 0, L.unit⟩

def add (s : Slot α) (a : α) (cost : ℕ) : Slot α :=
  ⟨s.items ++ [a], s.time + L.time a, s.left - cost⟩

def jump (a : α) (last : Slot α) : ℕ := if last.left < L.time a then L.time a / L.unit + 1 else 0

def place (a : α) (l : List (Slot α)) (last : Slot α) : List (Slot α) :=
  if last.left < L.time a then
    l ++ last :: List.replicate (L.time a / L.unit) L.emptySlot ++
      [L.add L.emptySlot a (L.time a % L.unit)]
  else l ++ [L.add last a (L.time a)]

end Layout

def busy : List (Slot α) → Bool
  | [s] => !s.items.isEmpty
  | _ => false

def push (L : Layout α) (a : α) (q : Queue α) : Bool × Queue α :=
  let last := q.slots.getLastD L.emptySlot
  if L.room < L.size a + q.size ∨ busy q.slots ∨ L.count < q.slots.length + L.jump a last then
    (false, q)
  else (true, ⟨L.place a q.slots.dropLast last, q.size + L.size a⟩)

def skip : List (Slot α) → List (Slot α)
  | s :: s' :: l => if s.items.isEmpty then skip (s' :: l) else s :: s' :: l
  | l => l

def takeFirst (L : Layout α) (size : ℕ) : List (Slot α) → Option α × Queue α
  | ⟨a :: items, time, left⟩ :: l => (some a, ⟨⟨items, time, left⟩ :: l, size - L.size a⟩)
  | l => (none, ⟨l, size⟩)

def owes : List (Slot α) → Bool
  | s :: _ => s.items.isEmpty && 0 < s.time
  | [] => false

def pop (L : Layout α) (q : Queue α) : Option α × Queue α :=
  if owes q.slots then (none, q) else takeFirst L q.size (skip q.slots)

def settle (L : Layout α) (q : Queue α) : Option ℕ × Queue α :=
  match q.slots with
  | s :: l => if owes q.slots then (some s.time, ⟨L.emptySlot :: l, q.size⟩) else (none, q)
  | [] => (none, q)

@[simp] theorem owes_cons (s : Slot α) (l : List (Slot α)) :
    owes (s :: l) = (s.items.isEmpty && 0 < s.time) := rfl

theorem busy_concat (l : List (Slot α)) (s : Slot α) :
    busy (l ++ [s]) = (l.isEmpty && !s.items.isEmpty) := by
  cases l with
  | nil => rfl
  | cons s' l => cases l <;> rfl

theorem push_concat (L : Layout α) (a : α) (l : List (Slot α)) (last : Slot α) (size : ℕ) :
    push L a ⟨l ++ [last], size⟩ =
      if L.room < L.size a + size ∨ busy (l ++ [last]) ∨ L.count < l.length + 1 + L.jump a last then
        (false, ⟨l ++ [last], size⟩)
      else (true, ⟨L.place a l last, size + L.size a⟩) := by
  simp [push]

theorem takeFirst_empty (L : Layout α) {s : Slot α} (hs : s.items = []) (size : ℕ) (l : List (Slot α)) :
    takeFirst L size (s :: l) = (none, ⟨s :: l, size⟩) := by
  obtain ⟨items, time, left⟩ := s
  obtain rfl : items = [] := hs
  rfl

theorem skip_eq_drop {l : List (Slot α)} {e : ℕ} (he : e < l.length)
    (hempty : ∀ s ∈ l.take e, s.items = []) (hend : l[e].items ≠ [] ∨ e + 1 = l.length) :
    skip l = l.drop e := by
  induction l generalizing e with
  | nil => simp at he
  | cons s l ih =>
    cases e with
    | zero =>
      cases l with
      | nil => rfl
      | cons s' l =>
        have hitems : s.items ≠ [] := hend.resolve_right (by simp)
        simp [skip, hitems]
    | succ e =>
      cases l with
      | nil => simp at he
      | cons s' l =>
        have hitems : s.items = [] := hempty s (by simp)
        have hrest := ih (e := e) (by simpa using he)
          (fun s hs => hempty s (List.mem_cons_of_mem _ hs)) (by simpa using hend)
        simp [skip, hitems, hrest]

end MeasurementLimiter.SlotQueue
