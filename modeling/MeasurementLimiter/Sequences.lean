import Mathlib

namespace MeasurementLimiter.Sequences

variable {α : Type*}

section Count

/-- How many entries of a list meet `P` with the entries before them, where `earlier` stands
before them all. -/
def countAlong (P : List α → α → Prop) [∀ l a, Decidable (P l a)] : List α → List α → ℕ
  | _, [] => 0
  | earlier, a :: l => (if P earlier a then 1 else 0) + countAlong P (earlier ++ [a]) l

variable {P Q : List α → α → Prop} [∀ l a, Decidable (P l a)] [∀ l a, Decidable (Q l a)]

theorem countAlong_pos {earlier : List α} {a : α} (h : P earlier a) (l : List α) :
    countAlong P earlier (a :: l) = countAlong P (earlier ++ [a]) l + 1 := by
  rw [countAlong, if_pos h, Nat.add_comm]

theorem countAlong_neg {earlier : List α} {a : α} (h : ¬P earlier a) (l : List α) :
    countAlong P earlier (a :: l) = countAlong P (earlier ++ [a]) l := by
  rw [countAlong, if_neg h, Nat.zero_add]

theorem countAlong_le (h : ∀ l a, Q l a → P l a) (earlier l : List α) :
    countAlong Q earlier l ≤ countAlong P earlier l := by
  induction l generalizing earlier with
  | nil => exact le_rfl
  | cons a l ih =>
    have hrest := ih (earlier ++ [a])
    by_cases hQ : Q earlier a
    · rw [countAlong_pos hQ, countAlong_pos (h earlier a hQ)]
      omega
    · rw [countAlong_neg hQ, countAlong]
      omega

theorem forall_snoc_prefix_cons {R : List α → α → Prop} {a : α} {l : List α} :
    (∀ l' b, l' ++ [b] <+: a :: l → R l' b) ↔
      R [] a ∧ ∀ l' b, l' ++ [b] <+: l → R (a :: l') b := by
  constructor
  · intro h
    exact ⟨h [] a (by simp), fun l' b hp => h (a :: l') b (by simpa using hp)⟩
  · rintro ⟨hhead, hrest⟩ l' b hp
    cases l' with
    | nil =>
      obtain rfl : b = a := by simpa using hp
      exact hhead
    | cons c l' =>
      obtain ⟨rfl, hp'⟩ := List.cons_prefix_cons.mp hp
      exact hrest l' b hp'

/-- Where one test is stricter than another, the counts agree exactly when the tests do on
every entry. -/
theorem countAlong_eq_iff (h : ∀ l a, Q l a → P l a) (earlier l : List α) :
    countAlong Q earlier l = countAlong P earlier l ↔
      ∀ l' a, l' ++ [a] <+: l → P (earlier ++ l') a → Q (earlier ++ l') a := by
  induction l generalizing earlier with
  | nil => simp [countAlong]
  | cons a l ih =>
    have hle := countAlong_le h (earlier ++ [a]) l
    have hrest : (∀ l' b, l' ++ [b] <+: l → P (earlier ++ a :: l') b → Q (earlier ++ a :: l') b) ↔
        countAlong Q (earlier ++ [a]) l = countAlong P (earlier ++ [a]) l := by
      rw [ih]
      simp only [List.append_assoc, List.singleton_append]
    rw [forall_snoc_prefix_cons, hrest, List.append_nil]
    by_cases hP : P earlier a
    case neg => simp [countAlong_neg hP, countAlong_neg fun hQ => hP (h earlier a hQ), hP]
    by_cases hQ : Q earlier a
    case pos => simp [countAlong_pos hP, countAlong_pos hQ, hQ]
    rw [countAlong_pos hP, countAlong_neg hQ]
    simp only [hP, hQ, true_implies, false_and, iff_false]
    omega

theorem countAlong_add_not (earlier l : List α) :
    countAlong P earlier l + countAlong (fun l a => ¬P l a) earlier l = l.length := by
  induction l generalizing earlier with
  | nil => rfl
  | cons a l ih =>
    have hrest := ih (earlier ++ [a])
    rw [List.length_cons]
    by_cases hP : P earlier a
    · rw [countAlong_pos hP, countAlong_neg (not_not_intro hP)]
      omega
    · rw [countAlong_neg hP, countAlong_pos hP]
      omega

end Count

section Pieces

variable [DecidableEq α] {a : α} {l p : List α}

def pieces (a : α) (l : List α) : List (List α) := (l.splitOn a).filter (· ≠ [])

theorem pieces_of_notMem (h : a ∉ p) : pieces a p = if p = [] then [] else [p] := by
  rw [pieces, List.splitOn_eq_singleton h]
  split_ifs with hp
  · simp [hp]
  · simp [hp]

theorem pieces_append_cons (p l : List α) :
    pieces a (p ++ a :: l) = pieces a p ++ pieces a l := by
  rw [pieces, pieces, List.splitOn_append_cons_self, List.filter_append]
  rfl

theorem pieces_cons : pieces a (a :: l) = pieces a l :=
  pieces_append_cons [] l

theorem exists_piece (h : a ∉ p) (hne : p ≠ []) (l : List α) :
    ∃ q ∈ pieces a (p ++ l), p <+: q := by
  induction l generalizing p with
  | nil =>
    refine ⟨p, ?_, List.prefix_refl p⟩
    rw [List.append_nil, pieces_of_notMem h, if_neg hne]
    exact List.mem_singleton_self p
  | cons b l ih =>
    by_cases hb : b = a
    case pos =>
      refine ⟨p, ?_, List.prefix_refl p⟩
      rw [hb, pieces_append_cons, pieces_of_notMem h, if_neg hne]
      exact List.mem_append_left _ (List.mem_singleton_self p)
    have hsnoc : a ∉ p ++ [b] := by
      simp [h, Ne.symm hb]
    obtain ⟨q, hq, hpre⟩ := ih hsnoc (List.append_ne_nil_of_right_ne_nil p (List.cons_ne_nil b []))
    rw [List.append_assoc] at hq
    exact ⟨q, hq, (List.prefix_append p [b]).trans hpre⟩

theorem flatten_pieces (a : α) (l : List α) : (pieces a l).flatten = l.filter (· ≠ a) := by
  induction l with
  | nil => rfl
  | cons b l ih =>
    by_cases hb : b = a
    case pos =>
      rw [hb, pieces_cons, ih]
      simp
    obtain ⟨p, ps, hps⟩ := List.exists_cons_of_ne_nil (List.splitOn_ne_nil a l)
    rw [pieces, List.flatten_filter_ne_nil] at ih ⊢
    rw [List.splitOn_cons_eq_if_modifyHead, if_neg (by simpa using hb), hps]
    rw [hps, List.flatten_cons] at ih
    rw [List.modifyHead_cons, List.flatten_cons, List.cons_append, ih,
      List.filter_cons_of_pos (by simpa using hb)]

/-- The pieces of a list of values are those between the entries with the value `a`. -/
theorem pieces_map {β : Type*} (f : β → α) (l : List β) :
    pieces a (l.map f) =
      ((l.splitOnP fun b => f b == a).filter (· ≠ [])).map (List.map f) := by
  have hsplit : (l.map f).splitOn a = (l.splitOnP fun b => f b == a).map (List.map f) := by
    induction l with
    | nil => simp
    | cons b l ih =>
      rw [List.splitOn_eq_splitOnP] at ih ⊢
      rw [List.map_cons, List.splitOnP_cons_eq_if_modifyHead, ih,
        List.splitOnP_cons_eq_if_modifyHead]
      split_ifs
      · rfl
      · cases l.splitOnP fun b => f b == a <;> rfl
  rw [pieces, hsplit, List.filter_map]
  congr 1
  apply List.filter_congr
  intro p _
  simp

end Pieces

section FirstSeen

variable [DecidableEq α]

def appendNew (seen : List α) (a : α) : List α := if a ∈ seen then seen else seen ++ [a]

def firstSeen (l : List α) : List α := l.foldl appendNew []

variable {l seen : List α} {a b : α}

theorem firstSeen_concat (l : List α) (a : α) : firstSeen (l ++ [a]) = appendNew (firstSeen l) a := by
  rw [firstSeen, List.foldl_append]
  rfl

theorem prefix_appendNew (seen : List α) (a : α) : seen <+: appendNew seen a := by
  unfold appendNew
  split_ifs
  · exact List.prefix_refl _
  · exact List.prefix_append _ _

theorem mem_appendNew : b ∈ appendNew seen a ↔ b ∈ seen ∨ b = a := by
  unfold appendNew
  split_ifs with h
  · exact ⟨Or.inl, fun hb => hb.elim id fun heq => heq ▸ h⟩
  · rw [List.mem_append, List.mem_singleton]

theorem mem_firstSeen : a ∈ firstSeen l ↔ a ∈ l := by
  induction l using List.reverseRecOn with
  | nil => rfl
  | append_singleton l b ih =>
    rw [firstSeen_concat, mem_appendNew, ih, List.mem_append, List.mem_singleton]

theorem nodup_firstSeen (l : List α) : (firstSeen l).Nodup := by
  induction l using List.reverseRecOn with
  | nil => exact List.nodup_nil
  | append_singleton l a ih =>
    rw [firstSeen_concat, appendNew]
    split_ifs with h
    · exact ih
    · exact List.nodup_append.mpr ⟨ih, List.nodup_singleton a, fun b hb c hc heq =>
        h (List.mem_singleton.mp hc ▸ heq ▸ hb)⟩

theorem length_firstSeen (l : List α) : (firstSeen l).length = l.toFinset.card := by
  rw [← List.toFinset_card_of_nodup (nodup_firstSeen l)]
  congr 1
  ext a
  simp [mem_firstSeen]

theorem firstSeen_prefix (l l' : List α) : firstSeen l <+: firstSeen (l ++ l') := by
  induction l' using List.reverseRecOn with
  | nil => rw [List.append_nil]
  | append_singleton l' a ih =>
    rw [← List.append_assoc, firstSeen_concat]
    exact ih.trans (prefix_appendNew _ a)

omit [DecidableEq α] in
theorem firstSeen_relabel {β γ : Type*} [DecidableEq β] [BEq β] [LawfulBEq β] [DecidableEq γ]
    [BEq γ] [LawfulBEq γ] {f : α → β} {g : α → γ} {l : List α}
    (h : ∀ x ∈ l, ∀ y ∈ l, f x = f y ↔ g x = g y) :
    (firstSeen (l.map f)).length = (firstSeen (l.map g)).length ∧
      ∀ x ∈ l, (firstSeen (l.map f)).idxOf (f x) = (firstSeen (l.map g)).idxOf (g x) := by
  induction l using List.reverseRecOn with
  | nil => exact ⟨rfl, fun x hx => absurd hx List.not_mem_nil⟩
  | append_singleton l a ih =>
    have hl : ∀ x ∈ l, x ∈ l ++ [a] := fun x => List.mem_append_left [a]
    have ha : a ∈ l ++ [a] := List.mem_append_right l List.mem_cons_self
    obtain ⟨hlen, hidx⟩ := ih fun x hx y hy => h x (hl x hx) y (hl y hy)
    rw [List.map_append, List.map_append, List.map_singleton, List.map_singleton,
      firstSeen_concat, firstSeen_concat]
    have hf : f a ∈ firstSeen (l.map f) ↔ ∃ x ∈ l, f x = f a := by
      rw [mem_firstSeen, List.mem_map]
    have hg : g a ∈ firstSeen (l.map g) ↔ ∃ x ∈ l, g x = g a := by
      rw [mem_firstSeen, List.mem_map]
    by_cases hold : ∃ x ∈ l, f x = f a
    · have hold' : ∃ x ∈ l, g x = g a := by
        obtain ⟨x, hx, hxa⟩ := hold
        exact ⟨x, hx, (h x (hl x hx) a ha).mp hxa⟩
      rw [appendNew, if_pos (hf.mpr hold), appendNew, if_pos (hg.mpr hold')]
      refine ⟨hlen, fun x hx => ?_⟩
      rcases List.mem_append.mp hx with hx | hx
      · exact hidx x hx
      · obtain rfl := List.mem_singleton.mp hx
        obtain ⟨y, hy, hyx⟩ := hold
        rw [← hyx, hidx y hy, (h y (hl y hy) x ha).mp hyx]
    · have hnew : ¬∃ x ∈ l, g x = g a := by
        rintro ⟨x, hx, hxa⟩
        exact hold ⟨x, hx, (h x (hl x hx) a ha).mpr hxa⟩
      have hfa : f a ∉ firstSeen (l.map f) := fun hmem => hold (hf.mp hmem)
      have hga : g a ∉ firstSeen (l.map g) := fun hmem => hnew (hg.mp hmem)
      rw [appendNew, if_neg hfa, appendNew, if_neg hga]
      refine ⟨by rw [List.length_append, List.length_append, hlen]; rfl, fun x hx => ?_⟩
      rcases List.mem_append.mp hx with hx | hx
      · rw [List.idxOf_append_of_mem (mem_firstSeen.mpr (List.mem_map_of_mem hx)),
          List.idxOf_append_of_mem (mem_firstSeen.mpr (List.mem_map_of_mem hx))]
        exact hidx x hx
      · obtain rfl := List.mem_singleton.mp hx
        rw [List.idxOf_append_of_notMem hfa, List.idxOf_append_of_notMem hga, hlen,
          List.idxOf_cons_self, List.idxOf_cons_self]

end FirstSeen

end MeasurementLimiter.Sequences
