import Mathlib

namespace MeasurementLimiter.Chains

variable {α : Type*}

/-- The cells of `l` are linked in the order of `l`, and the last one ends the list. -/
def Linked (next : α → Option α) : List α → Prop
  | [] => True
  | [a] => next a = none
  | a :: b :: l => next a = some b ∧ Linked next (b :: l)

structure Chain (next : α → Option α) (head tail : Option α) (l : List α) : Prop where
  head_eq : head = l.head?
  tail_eq : tail = l.getLast?
  linked : Linked next l

variable {next next' : α → Option α} {head tail : Option α} {a b : α} {l l' : List α}

theorem chain_nil : Chain next none none [] := ⟨rfl, rfl, trivial⟩

theorem Linked.rest (h : Linked next (a :: l)) : Linked next l := by
  cases l with
  | nil => trivial
  | cons b l => exact h.2

theorem Linked.next_head (h : Linked next (a :: l)) : next a = l.head? := by
  cases l with
  | nil => exact h
  | cons b l => exact h.1

theorem Linked.congr (h : Linked next l) (hsame : ∀ a ∈ l, next' a = next a) : Linked next' l := by
  induction l with
  | nil => trivial
  | cons a l ih =>
    have ih' := ih h.rest fun b hb => hsame b (List.mem_cons_of_mem a hb)
    cases l with
    | nil => exact (hsame a (by simp)).trans h
    | cons b l => exact ⟨(hsame a (by simp)).trans h.1, ih'⟩

theorem Chain.congr (h : Chain next head tail l) (hsame : ∀ a ∈ l, next' a = next a) :
    Chain next' head tail l :=
  ⟨h.head_eq, h.tail_eq, h.linked.congr hsame⟩

def Reaches (next : α → Option α) : α → α → Prop :=
  Relation.ReflTransGen fun a b => next a = some b

/-- From the head of a linked list the links lead to its cells and to nothing else. -/
theorem Linked.reaches_iff (h : Linked next (a :: l)) : Reaches next a b ↔ b ∈ a :: l := by
  induction l generalizing a with
  | nil =>
    have hend : next a = none := h
    rw [Reaches, Relation.ReflTransGen.cases_head_iff, List.mem_singleton]
    constructor
    · rintro (rfl | ⟨c, hc, -⟩)
      · rfl
      · rw [hend] at hc
        cases hc
    · rintro rfl
      exact .inl rfl
  | cons c l ih =>
    rw [Reaches, Relation.ReflTransGen.cases_head_iff, List.mem_cons, eq_comm]
    apply or_congr Iff.rfl
    constructor
    · rintro ⟨d, hd, hreach⟩
      obtain rfl : c = d := Option.some.inj (h.1.symm.trans hd)
      exact (ih h.2).mp hreach
    · intro hb
      exact ⟨c, h.1, (ih h.2).mpr hb⟩

theorem Chain.pop (h : Chain next head tail (a :: l)) :
    Chain next (next a) (if next a = none then none else tail) l := by
  have hn := h.linked.next_head
  refine ⟨hn, ?_, h.linked.rest⟩
  cases l with
  | nil => simp [hn]
  | cons b l => simp [hn, h.tail_eq, List.getLast?_cons_cons]

section Update

variable [DecidableEq α]

theorem Linked.snoc (h : Linked next (l ++ [b])) (hnodup : (l ++ [b]).Nodup) (ha : a ∉ l ++ [b])
    (hend : next a = none) : Linked (Function.update next b (some a)) (l ++ [b, a]) := by
  have hab : a ≠ b := by
    rintro rfl
    exact ha (by simp)
  induction l with
  | nil => exact ⟨by simp, by simpa [Linked, Function.update_apply, hab] using hend⟩
  | cons c l ih =>
    have hcb : c ≠ b := by
      rintro rfl
      simp at hnodup
    have hrest := ih h.rest (List.nodup_cons.mp hnodup).2 fun hmem => ha (List.mem_cons_of_mem c hmem)
    have hc : Function.update next b (some a) c = next c := by simp [hcb]
    have hhead := h.next_head
    cases l with
    | nil => exact ⟨by simpa [hc] using hhead, hrest⟩
    | cons d l => exact ⟨by simpa [hc] using hhead, hrest⟩

theorem Chain.push (h : Chain next head (some b) l) (hnodup : l.Nodup) (ha : a ∉ l)
    (hend : next a = none) :
    Chain (Function.update next b (some a)) head (some a) (l ++ [a]) := by
  obtain ⟨hhead, htail, hlinked⟩ := h
  obtain ⟨l, rfl⟩ : ∃ l', l = l' ++ [b] :=
    ⟨l.dropLast, (List.dropLast_append_getLast? b htail.symm).symm⟩
  refine ⟨?_, by simp, ?_⟩
  · rw [hhead]
    cases l <;> simp
  · simpa using hlinked.snoc hnodup ha hend

theorem Chain.update (h : Chain next head tail l) (ha : a ∉ l) (b : Option α) :
    Chain (Function.update next a b) head tail l :=
  h.congr fun c hc => Function.update_of_ne (fun hca : c = a => ha (hca ▸ hc)) b next

theorem Chain.cons (h : Chain next head tail l) (ha : a ∉ l) :
    Chain (Function.update next a head) (some a) (if head = none then some a else tail) (a :: l) := by
  have hlinked := (h.update ha head).linked
  obtain ⟨hhead, htail, -⟩ := h
  cases l with
  | nil => exact ⟨rfl, by simp [hhead], by simp [Linked, hhead]⟩
  | cons b l => exact ⟨rfl, by simp [hhead, htail], by simp [hhead], hlinked⟩

end Update

theorem chain_singleton_iff : Chain next (some a) (some a) [a] ↔ next a = none :=
  ⟨fun h => h.linked, fun hend => ⟨rfl, rfl, hend⟩⟩

theorem Chain.eq_nil_of_tail (h : Chain next head none l) : l = [] :=
  List.getLast?_eq_none_iff.mp h.tail_eq.symm

theorem Chain.eq_nil_of_head (h : Chain next none tail l) : l = [] :=
  List.head?_eq_none_iff.mp h.head_eq.symm

end MeasurementLimiter.Chains
