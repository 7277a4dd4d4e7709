import MeasurementLimiter.SimRing

namespace MeasurementLimiter.RingSim

open Cyclic

variable {τ : Type} {r r' : Ring τ} {p : Packet τ} {ib : ℤ}

def Ring.packets (r : Ring τ) (i : ℕ) : List (Packet τ) :=
  (List.range (r.nowQlen i)).map (r.ringQueue i)

def bytes (l : List (Packet τ)) : ℤ := (l.map Packet.len).sum

@[simp] theorem bytes_nil : bytes ([] : List (Packet τ)) = 0 := rfl

@[simp] theorem bytes_singleton (p : Packet τ) : bytes [p] = p.len := by simp [bytes]

@[simp] theorem bytes_append (l l' : List (Packet τ)) : bytes (l ++ l') = bytes l + bytes l' := by
  simp [bytes]

/-- The number of links from `now_postion` to `pre_pointer`. -/
def Ring.span (r : Ring τ) : ℕ := calInterval r.nowPostion r.prePointer

theorem span_eq (r : Ring τ) : r.span = gap block r.nowPostion r.prePointer := rfl

/-- The packets `j` blocks after `now_postion`. -/
def Ring.nth (r : Ring τ) (j : ℕ) : List (Packet τ) := r.packets (shift block r.nowPostion j)

/-- The packets in the blocks from `now_postion` forward to `pre_pointer`. -/
def Ring.stored (r : Ring τ) : List (Packet τ) := (List.range (r.span + 1)).flatMap r.nth

theorem packets_eq_nil {i : ℕ} : r.packets i = [] ↔ r.nowQlen i = 0 := by
  simp [Ring.packets]

/-- A packet was put into block `i`, which now holds the list `l` and counts `b` bytes. -/
structure Ring.Put (r r' : Ring τ) (i : ℕ) (l : List (Packet τ)) (b : ℤ) : Prop where
  packets : r'.packets = Function.update r.packets i l
  nowBytes : r'.nowBytes = Function.update r.nowBytes i b
  prePointer : r'.prePointer = i
  nowPostion : r'.nowPostion = r.nowPostion
  totBytes : r'.totBytes = r.totBytes

theorem write_ok {i j : ℕ} {b : ℤ} (h : r.write i j p b = .ok r') :
    r'.packets = Function.update r.packets i ((List.range j).map (r.ringQueue i) ++ [p]) ∧
      r'.nowBytes = Function.update r.nowBytes i b ∧ r'.prePointer = r.prePointer ∧
      r'.nowPostion = r.nowPostion ∧ r'.totBytes = r.totBytes := by
  unfold Ring.write at h
  split_ifs at h
  cases h
  refine ⟨funext fun k => ?_, rfl, rfl, rfl, rfl⟩
  unfold Ring.packets
  by_cases hk : k = i
  · subst hk
    simp only [Function.update_self, List.range_succ, List.map_append, List.map_singleton]
    congr 1
    refine List.map_congr_left fun m hm => ?_
    rw [Function.update_of_ne (List.mem_range.mp hm).ne]
  · simp only [Function.update_of_ne hk]

theorem jump_eq (hnow : r.nowPostion < block) (hpre : r.prePointer < block) (hlt : r.span < ib)
    (hle : ib ≤ block) :
    ((ib - r.span + r.prePointer) % block).toNat = shift block r.nowPostion ib.toNat := by
  rw [span_eq] at hlt ⊢
  unfold gap at hlt ⊢
  unfold shift
  unfold block at *
  split_ifs at hlt ⊢ <;> omega

/-- `in_ring` places a packet behind those of the block at `pre_pointer`, or alone in the block
`ib` blocks after `now_postion`. -/
theorem place_ok (hnow : r.nowPostion < block) (hpre : r.prePointer < block) (hle : ib ≤ block)
    (h : r.place p ib = .ok r') :
    (ib ≤ r.span ∧ r.Put r' r.prePointer (r.packets r.prePointer ++ [p])
      (r.nowBytes r.prePointer + p.len)) ∨
    (r.span < ib ∧ r.Put r' (shift block r.nowPostion ib.toNat) [p] p.len) := by
  unfold Ring.place at h
  dsimp only at h
  split_ifs at h with hstay
  · obtain ⟨hpackets, hbytes, hpointer, hpostion, htot⟩ := write_ok h
    exact .inl ⟨hstay, hpackets, hbytes, hpointer, hpostion, htot⟩
  · have hlt : (r.span : ℤ) < ib := not_le.mp hstay
    obtain ⟨hpackets, hbytes, hpointer, hpostion, htot⟩ := write_ok h
    have htarget := jump_eq hnow hpre hlt hle
    change ((ib - (calInterval r.nowPostion r.prePointer : ℕ) + r.prePointer) % block).toNat = _
      at htarget
    rw [htarget] at hpackets hbytes hpointer
    exact .inr ⟨hlt, hpackets, hbytes, hpointer, hpostion, htot⟩

theorem deRing_lines (n : ℕ) (r : Ring τ) :
    (deRing n r).1.map Line.packet = r.packets r.nowPostion := by
  unfold deRing
  dsimp only
  split_ifs with hn
  · rw [List.map_map]
    rfl
  · exact (packets_eq_nil.mpr (not_not.mp hn)).symm

theorem deRing_packets (n : ℕ) (r : Ring τ) :
    (deRing n r).2.packets = Function.update r.packets r.nowPostion [] := by
  unfold deRing
  dsimp only
  split_ifs with hn
  · refine funext fun k => ?_
    unfold Ring.packets
    by_cases hk : k = r.nowPostion
    · subst hk
      simp
    · simp [Function.update_of_ne hk]
  · rw [← packets_eq_nil.mpr (not_not.mp hn), Function.update_eq_self]

theorem deRing_totBytes (n : ℕ) (r : Ring τ) :
    (deRing n r).2.totBytes = r.totBytes - bytes (r.packets r.nowPostion) := by
  unfold deRing
  dsimp only
  split_ifs with hn
  · unfold bytes Ring.packets
    rw [List.map_map, List.map_map]
    rfl
  · rw [packets_eq_nil.mpr (not_not.mp hn), bytes_nil, sub_zero]

theorem deRing_nowBytes (n : ℕ) (r : Ring τ) :
    (deRing n r).2.nowBytes = if r.packets r.nowPostion = [] then r.nowBytes
      else Function.update r.nowBytes r.nowPostion 0 := by
  unfold deRing
  by_cases hn : r.nowQlen r.nowPostion = 0
  · simp [packets_eq_nil, hn]
  · simp [packets_eq_nil, hn]

theorem deRing_pointers (n : ℕ) (r : Ring τ) :
    (deRing n r).2.nowPostion = r.nowPostion ∧ (deRing n r).2.prePointer = r.prePointer := by
  unfold deRing
  dsimp only
  split_ifs
  · exact ⟨rfl, rfl⟩
  · exact ⟨rfl, rfl⟩

theorem next_eq {i : ℕ} (hi : i < block) : (i + 1) % block = shift block i 1 := by
  unfold shift
  unfold block at *
  split_ifs <;> omega

/-- `status_update` moves `now_postion` on, and `pre_pointer` with it if both are the same; what is
left of the block it leaves is not counted any more. -/
theorem statusUpdate_pointers (hnow : r.nowPostion < block) (hpre : r.prePointer < block) :
    (statusUpdate r).nowPostion = shift block r.nowPostion 1 ∧
      (statusUpdate r).prePointer < block ∧ (statusUpdate r).span = r.span - 1 := by
  have hone : 1 ≤ block := block_pos
  have hnext : (statusUpdate r).nowPostion = shift block r.nowPostion 1 := next_eq hnow
  by_cases hspan : r.span = 0
  · have hsame : r.nowPostion = r.prePointer := (gap_eq_zero hnow).mp hspan
    have hpointer : (statusUpdate r).prePointer = shift block r.nowPostion 1 := by
      rw [hsame, ← next_eq hpre]
      exact if_pos hspan
    refine ⟨hnext, hpointer ▸ shift_lt hnow hone, ?_⟩
    rw [span_eq, hnext, hpointer, gap_self, hspan]
  · have hpointer : (statusUpdate r).prePointer = r.prePointer := if_neg hspan
    refine ⟨hnext, hpointer ▸ hpre, ?_⟩
    rw [span_eq, hnext, hpointer]
    exact gap_shift_left hnow hpre (Nat.one_le_iff_ne_zero.mpr hspan)

theorem statusUpdate_packets (r : Ring τ) :
    (statusUpdate r).packets = Function.update r.packets r.nowPostion [] := by
  refine funext fun k => ?_
  unfold Ring.packets statusUpdate
  by_cases hk : k = r.nowPostion
  · subst hk
    simp
  · simp [Function.update_of_ne hk]

section Loops

variable [LE τ] {A : RingNum τ} {s s' : Sim τ}

/-- The blocks that the ring would take with packet `p`. -/
def Sim.needs (A : RingNum τ) (s : Sim τ) (p : Packet τ) : ℤ :=
  A.intervalBlock (p.len + s.ring.totBytes)

/-- The state after a packet that is thrown away. -/
def Sim.discard (s : Sim τ) (p : Packet τ) : Sim τ := { s with discarded := s.discarded ++ [p] }

/-- The state after `place` put packet `p` into the ring, which became `ring`. -/
def Sim.placedIn (s : Sim τ) (p : Packet τ) (ring : Ring τ) : Sim τ :=
  { s with
    ring := { ring with totBytes := ring.totBytes + p.len }
    placed := s.placed ++ [p] }

/-- The rule of the loop.  `I` is an invariant of the packets still to come and the state, and
`J` follows from it in each of the three ways in which the loop ends. -/
theorem inRingLoop_rule {I : List (Packet τ) → Sim τ → Prop} {J : Sim τ → Prop}
    (hexpired : ∀ p l s, I (p :: l) s → A.expired p.arrivalTime s.totRound → I l (s.discard p))
    (hplace : ∀ p l s ring, I (p :: l) s → ¬A.expired p.arrivalTime s.totRound → ¬A.tooLong p.len →
      s.needs A p ≤ block → s.ring.place p (s.needs A p) = .ok ring → I l (s.placedIn p ring))
    (hlong : ∀ p l s, I (p :: l) s → ¬A.expired p.arrivalTime s.totRound → A.tooLong p.len →
      J { s.discard p with inque := l })
    (hfull : ∀ p l s, I (p :: l) s → ¬A.expired p.arrivalTime s.totRound → ¬A.tooLong p.len →
      block < s.needs A p → J { s with inque := p :: l })
    (hdone : ∀ s, I [] s → J { s with inque := [] })
    {l : List (Packet τ)} (h₀ : I l s) (heq : inRingLoop A l s = .ok s') : J s' := by
  induction l generalizing s with
  | nil =>
    rw [← Except.ok.inj heq]
    exact hdone s h₀
  | cons p l ih =>
    rw [inRingLoop] at heq
    dsimp only at heq
    split_ifs at heq with he hl hf
    · exact ih (hexpired p l s h₀ he) heq
    · rw [← Except.ok.inj heq]
      exact hlong p l s h₀ he hl
    · rw [← Except.ok.inj heq]
      exact hfull p l s h₀ he hl hf
    · split at heq
      · cases heq
      · rename_i ring hring
        exact ih (hplace p l s ring h₀ he hl (not_lt.mp hf) hring) heq

theorem inRing_frame (heq : inRing A s = .ok s') :
    s'.input = s.input ∧ s'.totRound = s.totRound ∧ s'.printed = s.printed := by
  refine inRingLoop_rule
    (I := fun _ t => t.input = s.input ∧ t.totRound = s.totRound ∧ t.printed = s.printed)
    (J := fun t => t.input = s.input ∧ t.totRound = s.totRound ∧ t.printed = s.printed)
    (fun p l t h _ => h) (fun p l t ring h _ _ _ _ => h) (fun p l t h _ _ => h)
    (fun p l t h _ _ _ => h) (fun t h => h) ⟨rfl, rfl, rfl⟩ heq

/-- The input that is thrown away at tick `n`. -/
def skipped (A : RingNum τ) (n : ℕ) (input : List (Packet τ)) : List (Packet τ) :=
  input.takeWhile fun p => A.expired p.arrivalTime n

/-- The input that goes to `inque` at tick `n`. -/
def arriving (A : RingNum τ) (n : ℕ) (input : List (Packet τ)) : List (Packet τ) :=
  (input.dropWhile fun p => A.expired p.arrivalTime n).takeWhile fun p => A.arrived p.arrivalTime n

/-- The input that is left after tick `n`. -/
def coming (A : RingNum τ) (n : ℕ) (input : List (Packet τ)) : List (Packet τ) :=
  (input.dropWhile fun p => A.expired p.arrivalTime n).dropWhile fun p => A.arrived p.arrivalTime n

theorem input_split (A : RingNum τ) (n : ℕ) (input : List (Packet τ)) :
    skipped A n input ++ arriving A n input ++ coming A n input = input := by
  rw [List.append_assoc, arriving, coming, List.takeWhile_append_dropWhile, skipped,
    List.takeWhile_append_dropWhile]

/-- The state in which `in_ring` is called in the next tick, if it is called. -/
def Sim.begin (A : RingNum τ) (s : Sim τ) : Sim τ :=
  { s with
    totRound := s.totRound + 1
    input := coming A (s.totRound + 1) s.input
    inque := s.inque ++ arriving A (s.totRound + 1) s.input
    discarded := s.discarded ++ skipped A (s.totRound + 1) s.input }

/-- The inner loop pushes what has arrived, and one call of `in_ring` follows: no packet that
has not arrived is expired. -/
theorem testInput_inner (A : RingNum τ) (input : List (Packet τ)) (s : Sim τ) :
    testInput A input true s = inRing A { s with
      input := input.dropWhile fun p => A.arrived p.arrivalTime s.totRound
      inque := s.inque ++ input.takeWhile fun p => A.arrived p.arrivalTime s.totRound } := by
  induction input generalizing s with
  | nil => simp [testInput]
  | cons p input ih =>
    rw [testInput]
    split_ifs with ha
    · rw [ih]
      simp [ha]
    · simp only [List.dropWhile_cons, List.takeWhile_cons, ha, if_false, List.append_nil,
        Bool.false_eq_true]
      cases hring : inRing A { s with input := p :: input } with
      | error e => rfl
      | ok t =>
        have hround : t.totRound = s.totRound := (inRing_frame hring).2.1
        have he : ¬A.expired p.arrivalTime t.totRound := fun he =>
          ha (hround ▸ A.arrived_of_expired he)
        simp only [he]
        rfl

theorem testInput_outer (A : RingNum τ) (input : List (Packet τ)) (s : Sim τ) :
    testInput A input false s =
      let t : Sim τ := { s with
        input := coming A s.totRound input
        inque := s.inque ++ arriving A s.totRound input
        discarded := s.discarded ++ skipped A s.totRound input }
      if arriving A s.totRound input = [] then .ok t else inRing A t := by
  induction input generalizing s with
  | nil => simp [testInput, arriving, coming, skipped]
  | cons p input ih =>
    rw [testInput]
    by_cases he : A.expired p.arrivalTime s.totRound
    · have hskipped : skipped A s.totRound (p :: input) = p :: skipped A s.totRound input := by
        simp [skipped, he]
      have harriving : arriving A s.totRound (p :: input) = arriving A s.totRound input := by
        simp [arriving, he]
      have hcoming : coming A s.totRound (p :: input) = coming A s.totRound input := by
        simp [coming, he]
      rw [if_pos he, ih, hskipped, harriving, hcoming]
      simp only [List.append_assoc, List.singleton_append]
    · have hskipped : skipped A s.totRound (p :: input) = [] := by simp [skipped, he]
      rw [if_neg he, hskipped, List.append_nil]
      by_cases ha : A.arrived p.arrivalTime s.totRound
      · have harriving : arriving A s.totRound (p :: input) =
            p :: input.takeWhile fun p => A.arrived p.arrivalTime s.totRound := by
          simp [arriving, he, ha]
        have hcoming : coming A s.totRound (p :: input) =
            input.dropWhile fun p => A.arrived p.arrivalTime s.totRound := by
          simp [coming, he, ha]
        rw [if_pos ha, testInput_inner, harriving, hcoming]
        simp only [List.append_assoc, List.singleton_append, reduceCtorEq, if_false]
      · have harriving : arriving A s.totRound (p :: input) = [] := by simp [arriving, he, ha]
        have hcoming : coming A s.totRound (p :: input) = p :: input := by simp [coming, he, ha]
        rw [if_neg ha, harriving, hcoming]
        simp only [List.append_nil, if_true]

/-- The end of `test_func`: every tenth time a block is printed. -/
def Sim.finish (s : Sim τ) : Sim τ :=
  if s.totRound % 10 = 0 then s.deRing.statusUpdate else s

theorem tick_ok {o : Unit} (h : tick A s () = .ok (o, s')) :
    ∃ t, (if arriving A (s.totRound + 1) s.input = [] then t = s.begin A
      else inRing A (s.begin A) = .ok t) ∧ s' = t.finish := by
  have hbegin : testInput A s.input false { s with totRound := s.totRound + 1 } =
      if arriving A (s.totRound + 1) s.input = [] then .ok (s.begin A)
      else inRing A (s.begin A) := testInput_outer A s.input { s with totRound := s.totRound + 1 }
  unfold tick testFunc at h
  rw [hbegin] at h
  split_ifs at h ⊢ with hnone
  · exact ⟨s.begin A, rfl, (Prod.mk.inj (Except.ok.inj h)).2.symm⟩
  · cases hring : inRing A (s.begin A) with
    | error e =>
      rw [hring] at h
      cases h
    | ok t =>
      rw [hring] at h
      exact ⟨t, rfl, (Prod.mk.inj (Except.ok.inj h)).2.symm⟩

theorem tick_rule {I : Sim τ → Prop} (hbegin : I (s.begin A))
    (hring : ∀ t, arriving A (s.totRound + 1) s.input ≠ [] → inRing A (s.begin A) = .ok t → I t)
    (hfinish : ∀ t, I t → I t.finish) {c o : Unit} (heq : tick A s c = .ok (o, s')) : I s' := by
  obtain ⟨t, ht, rfl⟩ := tick_ok heq
  apply hfinish
  split_ifs at ht with hnone
  · rw [ht]
    exact hbegin
  · exact hring t hnone ht

theorem forall_begin {P : Packet τ → Prop} (hinque : ∀ p ∈ s.inque, P p)
    (hinput : ∀ p ∈ s.input, P p) :
    (∀ p ∈ (s.begin A).inque, P p) ∧ ∀ p ∈ (s.begin A).input, P p := by
  have hsplit : ∀ p, p ∈ arriving A (s.totRound + 1) s.input ∨
      p ∈ coming A (s.totRound + 1) s.input → P p := by
    intro p hp
    apply hinput
    rw [← input_split A (s.totRound + 1) s.input, List.append_assoc]
    exact List.mem_append_right _ (List.mem_append.mpr hp)
  refine ⟨fun p hp => ?_, fun p hp => hsplit p (.inr hp)⟩
  rcases List.mem_append.mp hp with hp | hp
  · exact hinque p hp
  · exact hsplit p (.inl hp)

end Loops

end MeasurementLimiter.RingSim
