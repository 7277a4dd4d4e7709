import MeasurementLimiter.SlotQueue

namespace MeasurementLimiter.SlotQueue

variable {α : Type*} {L : Layout α} {a : α} {b : ℕ} {s last : Slot α} {l init : List (Slot α)}
  {q : Queue α}

def Layout.timeOf (L : Layout α) (items : List α) : ℕ := (items.map L.time).sum

def spent (l : List (Slot α)) : ℕ := (l.map Slot.time).sum

/-- The slots `l` behind a slot with `b` left are not longer than twice their time. -/
def Reach (L : Layout α) (b : ℕ) (l : List (Slot α)) : Prop :=
  b + l.length * L.unit ≤ (l.getLastD L.emptySlot).left + 2 * spent l

def Filled (L : Layout α) : List (Slot α) → Prop
  | [] => True
  | s :: l => (s.items ≠ [] → l ≠ [] → Reach L s.left l) ∧ Filled L l

/-- The slots behind the read one are well used, and have all items that they were given.  There
are no more slots in use than there are. -/
structure Tight (L : Layout α) (l : List (Slot α)) : Prop where
  ne : l ≠ []
  length_le : l.length ≤ L.count
  reach : l.tail ≠ [] → Reach L 0 l.tail
  filled : Filled L l.tail
  counted : ∀ s ∈ l.tail, s.time = L.timeOf s.items

@[simp] theorem spent_cons (s : Slot α) (l : List (Slot α)) :
    spent (s :: l) = s.time + spent l := by
  simp [spent]

@[simp] theorem spent_append (l l' : List (Slot α)) : spent (l ++ l') = spent l + spent l' := by
  simp [spent]

@[simp] theorem spent_empty (L : Layout α) (n : ℕ) : spent (List.replicate n L.emptySlot) = 0 := by
  simp [spent, Layout.emptySlot]

theorem Reach.mono {b' : ℕ} (h : Reach L b l) (hb : b' ≤ b) : Reach L b' l :=
  (Nat.add_le_add_right hb _).trans h

theorem Tight.of_tail {l' : List (Slot α)} (h : Tight L l) (hne : l' ≠ [])
    (hlen : l'.length = l.length) (htail : l'.tail = l.tail) : Tight L l' :=
  ⟨hne, hlen.trans_le h.length_le, htail ▸ h.reach, htail ▸ h.filled, htail ▸ h.counted⟩

def Layout.opened (L : Layout α) (a : α) : List (Slot α) :=
  List.replicate (L.time a / L.unit) L.emptySlot ++ [L.add L.emptySlot a (L.time a % L.unit)]

theorem place_jump (h : last.left < L.time a) (init : List (Slot α)) :
    L.place a init last = init ++ last :: L.opened a := by
  rw [Layout.place, if_pos h, Layout.opened, List.append_assoc]
  rfl

theorem place_stay (h : ¬last.left < L.time a) (init : List (Slot α)) :
    L.place a init last = init ++ [L.add last a (L.time a)] := by
  rw [Layout.place, if_neg h]

theorem place_cons (s : Slot α) (init : List (Slot α)) (last : Slot α) :
    L.place a (s :: init) last = s :: L.place a init last := by
  by_cases h : last.left < L.time a
  · rw [place_jump h, place_jump h]
    rfl
  · rw [place_stay h, place_stay h]
    rfl

theorem place_ne_nil (init : List (Slot α)) (last : Slot α) : L.place a init last ≠ [] := by
  by_cases h : last.left < L.time a
  · rw [place_jump h]
    simp
  · rw [place_stay h]
    simp

theorem length_place (a : α) (init : List (Slot α)) (last : Slot α) :
    (L.place a init last).length = init.length + 1 + L.jump a last := by
  by_cases h : last.left < L.time a
  · rw [place_jump h, Layout.jump, if_pos h, Layout.opened]
    simp
    omega
  · rw [place_stay h, Layout.jump, if_neg h]
    simp

theorem reach_opened (hunit : 0 < L.unit) (hb : b ≤ L.time a) : Reach L b (L.opened a) := by
  have hdiv := Nat.div_add_mod (L.time a) L.unit
  have hmod := Nat.mod_lt (L.time a) hunit
  unfold Reach Layout.opened
  rw [List.getLastD_concat, List.length_append, List.length_replicate, List.length_singleton,
    spent_append, spent_empty, Nat.add_mul, Nat.mul_comm (L.time a / L.unit)]
  simp only [Layout.add, Layout.emptySlot, spent, List.map_singleton, List.sum_singleton]
  omega

theorem reach_place (hunit : 0 < L.unit) (h : Reach L b (init ++ [last])) :
    Reach L b (L.place a init last) := by
  unfold Reach at h
  rw [List.getLastD_concat, List.length_append, spent_append, Nat.add_mul] at h
  by_cases hjump : last.left < L.time a
  · have hopened := reach_opened (a := a) hunit hjump.le
    have hlast : (L.place a init last).getLastD L.emptySlot =
        (L.opened a).getLastD L.emptySlot := by
      rw [place_jump hjump, Layout.opened, ← List.cons_append, ← List.append_assoc,
        List.getLastD_concat, List.getLastD_concat]
    unfold Reach at hopened ⊢
    rw [hlast, place_jump hjump, List.length_append, List.length_cons, spent_append, spent_cons,
      Nat.add_mul, Nat.add_mul]
    simp only [List.length_singleton, spent, List.map_singleton, List.sum_singleton] at h hopened ⊢
    omega
  · unfold Reach
    rw [place_stay hjump, List.getLastD_concat, List.length_append, spent_append, Nat.add_mul]
    simp only [Layout.add, List.length_singleton, spent, List.map_singleton, List.sum_singleton]
      at h ⊢
    omega

theorem filled_opened (a : α) : Filled L (L.opened a) := by
  unfold Layout.opened
  induction L.time a / L.unit with
  | zero => exact ⟨fun _ hne => absurd rfl hne, trivial⟩
  | succ n ih => exact ⟨fun hitems => absurd rfl hitems, ih⟩

theorem filled_place (hunit : 0 < L.unit) (h : Filled L (init ++ [last])) :
    Filled L (L.place a init last) := by
  induction init with
  | nil =>
    by_cases hjump : last.left < L.time a
    · rw [place_jump hjump]
      exact ⟨fun _ _ => reach_opened hunit hjump.le, filled_opened a⟩
    · rw [place_stay hjump]
      exact ⟨fun _ hne => absurd rfl hne, trivial⟩
  | cons s init ih =>
    obtain ⟨hs, hrest⟩ := h
    rw [place_cons]
    exact ⟨fun hitems _ => reach_place hunit (hs hitems (by simp)), ih hrest⟩

theorem counted_add {s : Slot α} {cost : ℕ} (h : s.time = L.timeOf s.items) :
    (L.add s a cost).time = L.timeOf (L.add s a cost).items := by
  simp only [Layout.add, Layout.timeOf, List.map_append, List.sum_append, h]
  simp

theorem counted_opened {s : Slot α} (hs : s ∈ L.opened a) : s.time = L.timeOf s.items := by
  rcases List.mem_append.mp hs with hs | hs
  · rw [(List.mem_replicate.mp hs).2]
    rfl
  · rw [List.mem_singleton.mp hs]
    exact counted_add rfl

theorem counted_place (h : ∀ s ∈ init ++ [last], s.time = L.timeOf s.items) :
    ∀ s ∈ L.place a init last, s.time = L.timeOf s.items := by
  intro s hs
  by_cases hjump : last.left < L.time a
  · rw [place_jump hjump, List.append_cons] at hs
    rcases List.mem_append.mp hs with hs | hs
    · exact h s hs
    · exact counted_opened hs
  · rw [place_stay hjump] at hs
    rcases List.mem_append.mp hs with hs | hs
    · exact h s (List.mem_append_left _ hs)
    · rw [List.mem_singleton.mp hs]
      exact counted_add (h last (by simp))

theorem Tight.place (hunit : 0 < L.unit) (h : Tight L (init ++ [last]))
    (hroom : init.length + 1 + L.jump a last ≤ L.count) : Tight L (L.place a init last) := by
  have hne : L.place a init last ≠ [] := place_ne_nil _ _
  have hlen := (length_place a init last).trans_le hroom
  cases init with
  | nil =>
    by_cases hjump : last.left < L.time a
    · rw [place_jump hjump] at hne hlen ⊢
      exact ⟨hne, hlen, fun _ => reach_opened hunit (Nat.zero_le _), filled_opened a,
        fun s hs => counted_opened hs⟩
    · rw [place_stay hjump] at hne hlen ⊢
      exact ⟨hne, hlen, fun htail => absurd rfl htail, trivial,
        fun s hs => absurd hs List.not_mem_nil⟩
  | cons s init =>
    rw [place_cons] at hne hlen ⊢
    exact ⟨hne, hlen, fun _ => reach_place hunit (h.reach (by simp)), filled_place hunit h.filled,
      counted_place h.counted⟩

theorem Tight.push (hunit : 0 < L.unit) (h : Tight L q.slots) : Tight L (push L a q).2.slots := by
  obtain ⟨slots, size⟩ := q
  obtain ⟨init, last, rfl⟩ := (List.eq_nil_or_concat' slots).resolve_left h.ne
  rw [push_concat]
  split_ifs with hno
  · exact h
  · exact h.place hunit (not_lt.mp fun hlt => hno (.inr (.inr hlt)))

/-- Where the first slots in use are passed, the next one with items is well followed. -/
theorem tight_skip (hne : l ≠ []) (hlen : l.length ≤ L.count) (hfilled : Filled L l.tail)
    (hcounted : ∀ s ∈ l.tail, s.time = L.timeOf s.items)
    (hreach : ∀ s ∈ l.head?, s.items ≠ [] → l.tail ≠ [] → Reach L 0 l.tail) :
    Tight L (skip l) := by
  induction l with
  | nil => exact absurd rfl hne
  | cons s l ih =>
    cases l with
    | nil => exact ⟨hne, hlen, fun htail => absurd rfl htail, trivial, hcounted⟩
    | cons s' l =>
      rw [skip]
      split_ifs with hitems
      · refine ih (by simp) ((Nat.le_succ _).trans hlen) hfilled.2
          (fun t ht => hcounted t (List.mem_cons_of_mem _ ht)) fun t ht htitems htail => ?_
        obtain rfl := Option.some.inj ht
        exact (hfilled.1 htitems htail).mono (Nat.zero_le _)
      · exact ⟨hne, hlen, hreach s rfl fun he => hitems (by rw [he]; rfl), hfilled, hcounted⟩

theorem Tight.pop (h : Tight L q.slots) : Tight L (pop L q).2.slots := by
  rw [SlotQueue.pop]
  split_ifs
  · exact h
  · have hskip := tight_skip h.ne h.length_le h.filled h.counted fun _ _ _ => h.reach
    obtain ⟨s, l, hl⟩ := List.exists_cons_of_ne_nil hskip.ne
    rw [hl] at hskip ⊢
    obtain ⟨items, time, left⟩ := s
    cases items with
    | nil => exact hskip
    | cons a items => exact hskip.of_tail (by simp [takeFirst]) rfl rfl

theorem Tight.settle (h : Tight L q.slots) : Tight L (settle L q).2.slots := by
  obtain ⟨slots, size⟩ := q
  cases slots with
  | nil => exact h
  | cons s l =>
    rw [SlotQueue.settle]
    split_ifs
    · exact h.of_tail (by simp) rfl rfl
    · exact h

theorem spent_eq (hcounted : ∀ s ∈ l, s.time = L.timeOf s.items) :
    spent l = L.timeOf (l.flatMap Slot.items) := by
  induction l with
  | nil => rfl
  | cons s l ih =>
    have hs := hcounted s List.mem_cons_self
    have hl := ih fun t ht => hcounted t (List.mem_cons_of_mem _ ht)
    rw [spent_cons, hs, hl, Layout.timeOf, Layout.timeOf, Layout.timeOf, List.flatMap_cons,
      List.map_append, List.sum_append]

/-- An item is refused for its size, or because the only slot in use is being read, or where the
items with it take more than half of the slots. -/
theorem Tight.refused (h : Tight L q.slots) (hpush : (SlotQueue.push L a q).1 = false) :
    L.room < L.size a + q.size ∨ busy q.slots ∨
      (L.count - 1) * L.unit < 2 * (L.timeOf (q.slots.flatMap Slot.items) + L.time a) := by
  obtain ⟨slots, size⟩ := q
  obtain ⟨init, last, rfl⟩ := (List.eq_nil_or_concat' slots).resolve_left h.ne
  rw [push_concat] at hpush
  split_ifs at hpush with hno
  refine hno.imp_right fun hno => hno.imp_right fun hlong => ?_
  have hlen := h.length_le
  rw [List.length_append, List.length_singleton] at hlen
  have hjump : last.left < L.time a := by
    by_contra hstay
    rw [Layout.jump, if_neg hstay] at hlong
    omega
  rw [Layout.jump, if_pos hjump] at hlong
  have hdiv := Nat.div_mul_le_self (L.time a) L.unit
  have hcount : (L.count - 1) * L.unit ≤ (init.length + L.time a / L.unit) * L.unit :=
    Nat.mul_le_mul_right _ (by omega)
  rw [Nat.add_mul] at hcount
  change _ < 2 * (L.timeOf ((init ++ [last]).flatMap Slot.items) + L.time a)
  cases init with
  | nil =>
    simp only [List.length_nil, Nat.zero_mul] at hcount
    omega
  | cons s init =>
    have hreach := h.reach (by simp)
    have hspent := spent_eq h.counted
    simp only [List.cons_append, List.tail_cons, Reach] at hreach hspent
    rw [List.getLastD_concat, List.length_append, List.length_singleton] at hreach
    rw [List.length_cons] at hcount
    have hitems : L.timeOf ((init ++ [last]).flatMap Slot.items) ≤
        L.timeOf ((s :: init ++ [last]).flatMap Slot.items) := by
      simp [Layout.timeOf]
    omega

end MeasurementLimiter.SlotQueue
