import MeasurementLimiter.SimBlocks
import MeasurementLimiter.SimRate
import MeasurementLimiter.SimWait

namespace MeasurementLimiter.RingSim

open Cyclic Runs

variable {τ : Type} {r r' : Ring τ} {p : Packet τ} {ib : ℤ} {l : List (Packet τ)} {i : ℕ}

/-- The total counts at least the bytes of all blocks.  It counts more where a block was
overwritten. -/
def Covers (r : Ring τ) : Prop := ∑ i ∈ Finset.range block, bytes (r.packets i) ≤ r.totBytes

theorem Covers.bytes_le (h : Covers r) (hpos : Positive r) (hi : i < block) :
    bytes (r.packets i) ≤ r.totBytes :=
  (Finset.single_le_sum (f := fun j => bytes (r.packets j))
    (fun j hj => bytes_nonneg (hpos j (Finset.mem_range.mp hj))) (Finset.mem_range.mpr hi)).trans h

theorem Covers.put (h : Covers r) {b : ℤ} (hi : i < block) (hput : r.Put r' i l b)
    (hl : bytes l ≤ bytes (r.packets i) + p.len) : Covers (r'.count p) := by
  have hsum := sum_bytes_update r.packets hi l
  unfold Covers at h ⊢
  change ∑ j ∈ Finset.range block, bytes (r'.packets j) ≤ r'.totBytes + p.len
  rw [hput.packets, hput.totBytes]
  omega

theorem packets_step (n : ℕ) (r : Ring τ) : (statusUpdate (deRing n r).2).packets =
    Function.update r.packets r.nowPostion [] := by
  rw [statusUpdate_packets, (deRing_pointers n r).1, deRing_packets, Function.update_idem]

theorem Covers.finish {s : Sim τ} (h : Covers s.ring) (hr : InRange s.ring) :
    Covers s.finish.ring := by
  unfold Sim.finish
  split_ifs
  · have hsum := sum_bytes_update s.ring.packets hr.now_lt []
    have htot : (statusUpdate (deRing s.totRound s.ring).2).totBytes =
        s.ring.totBytes - bytes (s.ring.packets s.ring.nowPostion) := deRing_totBytes _ _
    unfold Covers at h ⊢
    change ∑ j ∈ Finset.range block,
      bytes ((statusUpdate (deRing s.totRound s.ring).2).packets j) ≤ _
    rw [packets_step]
    refine le_of_le_of_eq ?_ htot.symm
    rw [bytes_nil] at hsum
    omega
  · exact h

def Level (b : ℚ) (r : Ring τ) : Prop := ∀ i < block, (bytes (r.packets i) : ℚ) ≤ b

/-- No block has more than `b` bytes, and no call of `de_ring` printed more. -/
structure Sim.Within (b : ℚ) (s : Sim τ) : Prop where
  level : Level b s.ring
  printed : ∀ lines ∈ s.printed, (bytes (lines.map Line.packet) : ℚ) ≤ b

def HasRoom (b : ℚ) (last : List (Packet τ)) (p : Packet τ) : Prop :=
  ((bytes last + p.len : ℤ) : ℚ) ≤ b

instance (b : ℚ) (last : List (Packet τ)) (p : Packet τ) : Decidable (HasRoom b last p) :=
  inferInstanceAs (Decidable (_ ≤ _))

theorem level_put {b : ℚ} {c : ℤ} (h : Level b r) (hput : r.Put r' i l c)
    (hl : (bytes l : ℚ) ≤ b) : Level b (r'.count p) := by
  intro j hj
  change (bytes (r'.packets j) : ℚ) ≤ b
  rw [hput.packets, Function.update_apply]
  split_ifs
  · exact hl
  · exact h j hj

theorem bytes_place_le {b : ℚ} {t : Tail τ} (hlen : (p.len : ℚ) ≤ b)
    (hroom : ib ≤ t.span → HasRoom b t.last p) : (bytes (t.place p ib).last : ℚ) ≤ b := by
  rw [place_last]
  split_ifs with hstay
  · rw [bytes_append, bytes_singleton]
    exact hroom hstay
  · rwa [bytes_singleton]

theorem put_of_place (hr : InRange r) (hpos : Positive r) (hp : 0 < p.len) (hle : ib ≤ block)
    (heq : r.place p ib = .ok r') : ∃ i < block, ∃ c, r.Put r' i (r.tail.place p ib).last c ∧
      bytes (r.tail.place p ib).last ≤ bytes (r.packets i) + p.len ∧
      ∀ p' ∈ (r.tail.place p ib).last, 0 < p'.len := by
  rcases place_ok hr.now_lt hr.pre_lt hle heq with ⟨hstay, hput⟩ | ⟨hlt, hput⟩
  · have hlast : (r.tail.place p ib).last = r.packets r.prePointer ++ [p] :=
      (place_last ..).trans (if_pos hstay)
    rw [hlast]
    refine ⟨_, hr.pre_lt, _, hput, by simp, fun p' hp' => ?_⟩
    rcases List.mem_append.mp hp' with hp' | hp'
    · exact hpos _ hr.pre_lt p' hp'
    · rwa [List.mem_singleton.mp hp']
  · have hlast : (r.tail.place p ib).last = [p] :=
      (place_last ..).trans (if_neg (not_le.mpr hlt))
    have htarget : shift block r.nowPostion ib.toNat < block := shift_lt hr.now_lt (by omega)
    have hold := bytes_nonneg (hpos _ htarget)
    rw [hlast]
    refine ⟨_, htarget, _, hput, by simpa using hold, fun p' hp' => ?_⟩
    rwa [List.mem_singleton.mp hp']

theorem finish_within {b : ℚ} (hb : 0 ≤ b) {s : Sim τ} (hr : InRange s.ring) :
    s.finish.Within b ↔ s.Within b := by
  unfold Sim.finish
  split_ifs
  case neg => exact Iff.rfl
  have hpackets : s.deRing.statusUpdate.ring.packets =
      Function.update s.ring.packets s.ring.nowPostion [] := packets_step _ _
  have hprinted : s.deRing.statusUpdate.printed = s.printed ++ [(deRing s.totRound s.ring).1] := rfl
  constructor
  · rintro ⟨hlevel, hlines⟩
    rw [hprinted] at hlines
    refine ⟨fun i hi => ?_, fun lines h => hlines lines (List.mem_append_left _ h)⟩
    by_cases hnow : i = s.ring.nowPostion
    · have hlast := hlines _ (List.mem_append_right _ (List.mem_singleton_self _))
      rwa [deRing_lines, ← hnow] at hlast
    · have hblock := hlevel i hi
      rwa [hpackets, Function.update_of_ne hnow] at hblock
  · rintro ⟨hlevel, hlines⟩
    refine ⟨fun i hi => ?_, fun lines h => ?_⟩
    · rw [hpackets, Function.update_apply]
      split_ifs
      · simpa using hb
      · exact hlevel i hi
    · rw [hprinted] at h
      rcases List.mem_append.mp h with h | h
      · exact hlines lines h
      · rw [List.mem_singleton.mp h, deRing_lines]
        exact hlevel _ hr.now_lt

def Packet.Sized (M : ℕ) (p : Packet τ) : Prop := 1 ≤ p.len ∧ p.len ≤ M

/-- What is known of every state, where the packets have lengths up to `M`. -/
structure Loaded (M : ℕ) (s : Sim τ) : Prop where
  inRange : InRange s.ring
  positive : Positive s.ring
  covers : Covers s.ring
  waiting : ∀ p ∈ s.inque, p.Sized M
  unread : ∀ p ∈ s.input, p.Sized M

theorem loaded_new {M : ℕ} (mem : ℕ → ℕ → Packet τ) {input : List (Packet τ)}
    (hlen : ∀ p ∈ input, p.Sized M) : Loaded M (Sim.new mem input) := by
  have hempty : ∀ i, (Ring.new mem).packets i = [] := packets_new mem
  refine ⟨⟨block_pos, block_pos⟩, (known_new mem input).positive, ?_, by simp [Sim.new], hlen⟩
  change ∑ i ∈ Finset.range block, bytes ((Ring.new mem).packets i) ≤ 0
  simp only [hempty, bytes_nil, Finset.sum_const_zero, le_refl]

theorem Loaded.finish {M : ℕ} {s : Sim τ} (d : Loaded M s) : Loaded M s.finish := by
  obtain ⟨hinput, hinque, -, -, -⟩ := finish_frame s
  exact ⟨d.inRange.finish, d.positive.finish, d.covers.finish d.inRange, hinque ▸ d.waiting,
    hinput ▸ d.unread⟩

/-- A jump that needs more blocks than those up to block `i` does not come down on it: it leads
beyond, or round to the first block. -/
theorem shift_beyond (hr : InRange r) (hne : i ≠ r.nowPostion)
    (hlt : gap block r.nowPostion i < ib) (hle : ib ≤ block) :
    i ≠ shift block r.nowPostion ib.toNat ∧
      (ib ≠ block → gap block r.nowPostion i ≤ gap block r.nowPostion
        (shift block r.nowPostion ib.toNat)) := by
  by_cases hib : ib = block
  · rw [hib, Int.toNat_natCast, shift_lap]
    exact ⟨hne, fun h => absurd rfl h⟩
  · have hgap := gap_shift hr.now_lt (show ib.toNat < block by omega)
    refine ⟨fun hi => ?_, fun _ => by omega⟩
    rw [← hi] at hgap
    omega

/-- What the loop of `in_ring`, started in state `s`, keeps when the packets `l` are still to
come. -/
structure Loading (M : ℕ) (s : Sim τ) (l : List (Packet τ)) (t : Sim τ) : Prop where
  inRange : InRange t.ring
  positive : Positive t.ring
  covers : Covers t.ring
  round : t.totRound = s.totRound
  sized : ∀ p ∈ l, p.Sized M

theorem Loading.expired {M : ℕ} {s t : Sim τ} (f : Loading M s (p :: l) t) :
    Loading M s l (t.discard p) :=
  ⟨f.inRange, f.positive, f.covers, f.round, fun p' hp' => f.sized p' (List.mem_cons_of_mem p hp')⟩

section Loop

variable [LE τ] {A : RingNum τ} {s s' t : Sim τ} {b : ℚ} {M : ℕ}

/-- A block behind the first one has more than `b` bytes.  The jumps still to come lead beyond
it, or round to the first block. -/
structure Piled (A : RingNum τ) (b : ℚ) (r : Ring τ) (i : ℕ) : Prop where
  block_lt : i < block
  more : b < bytes (r.packets i)
  behind : i ≠ r.nowPostion
  ahead : gap block r.nowPostion i ≤ r.span ∨ block ≤ A.intervalBlock r.totBytes

theorem Piled.not_level (h : Piled A b r i) : ¬Level b r := fun hlevel =>
  absurd (hlevel i h.block_lt) (not_le.mpr h.more)

theorem Piled.put {c : ℤ} {pos : ℕ} {l : List (Packet τ)} (h : Piled A b r i)
    (hput : r.Put r' pos l c) (hmore : b < bytes (r'.packets i))
    (hahead : gap block r.nowPostion i ≤ (r'.count p).tail.span ∨
      block ≤ A.intervalBlock (r'.count p).tail.tot) : Piled A b (r'.count p) i := by
  refine ⟨h.block_lt, hmore, ?_, ?_⟩
  · change i ≠ r'.nowPostion
    rw [hput.nowPostion]
    exact h.behind
  · change gap block r'.nowPostion i ≤ (r'.count p).tail.span ∨
      block ≤ A.intervalBlock (r'.count p).tail.tot
    rwa [hput.nowPostion]

theorem Piled.join {c : ℤ} (h : Piled A b r i) (hp : 0 < p.len)
    (hput : r.Put r' r.prePointer (r.packets r.prePointer ++ [p]) c) :
    Piled A b (r'.count p) i := by
  have htail : (r'.count p).tail = ⟨r.totBytes + p.len, r.span, _⟩ := tail_put hput
  refine h.put hput ?_ ?_
  · have hmore := h.more
    rw [hput.packets, Function.update_apply]
    split_ifs with hi
    · have hlen : (0 : ℚ) < p.len := by exact_mod_cast hp
      rw [bytes_append, bytes_singleton, ← hi]
      push_cast
      linarith
    · exact hmore
  · have hgrows : r.totBytes ≤ r.totBytes + p.len := by omega
    rw [htail]
    exact h.ahead.imp_right fun hwrap => hwrap.trans (A.intervalBlock_mono hgrows)

theorem Piled.jump {c : ℤ} (h : Piled A b r i) (hr : InRange r)
    (hlt : gap block r.nowPostion i < A.intervalBlock (p.len + r.totBytes))
    (hle : A.intervalBlock (p.len + r.totBytes) ≤ block)
    (hput : r.Put r'
      (shift block r.nowPostion (A.intervalBlock (p.len + r.totBytes)).toNat) [p] c) :
    Piled A b (r'.count p) i := by
  obtain ⟨hother, hbeyond⟩ := shift_beyond hr h.behind hlt hle
  have htail : (r'.count p).tail = ⟨r.totBytes + p.len, _, [p]⟩ := tail_put hput
  refine h.put hput ?_ ?_
  · rw [hput.packets, Function.update_of_ne hother]
    exact h.more
  · rw [htail, add_comm r.totBytes]
    by_cases hib : A.intervalBlock (p.len + r.totBytes) = block
    · exact .inr hib.ge
    · exact .inl (hbeyond hib)

theorem Piled.place (h : Piled A b r i) (hr : InRange r) (hp : 0 < p.len)
    (hle : A.intervalBlock (p.len + r.totBytes) ≤ block)
    (heq : r.place p (A.intervalBlock (p.len + r.totBytes)) = .ok r') :
    Piled A b (r'.count p) i := by
  rcases place_ok hr.now_lt hr.pre_lt hle heq with ⟨-, hput⟩ | ⟨hlt, hput⟩
  · exact h.join hp hput
  · have hgap : gap block r.nowPostion i < block := gap_lt h.block_lt
    have hmono : A.intervalBlock r.totBytes ≤ A.intervalBlock (p.len + r.totBytes) :=
      A.intervalBlock_mono (by omega)
    refine h.jump hr ?_ hle hput
    rcases h.ahead with hin | hwrap
    · omega
    · omega

/-- A packet that joins the first block leaves at most `b` bytes there: what needs no further block
fits into one. -/
def FirstHolds (A : RingNum τ) (b : ℚ) : Prop := ∀ t, 0 ≤ t → A.intervalBlock t ≤ 0 → (t : ℚ) ≤ b

theorem hasRoom_first (hfirst : FirstHolds A b) (hr : InRange r) (hpos : Positive r)
    (hcovers : Covers r) (hp : 0 < p.len) (hsame : r.prePointer = r.nowPostion)
    (hstay : A.intervalBlock (p.len + r.totBytes) ≤ r.span) :
    HasRoom b (r.packets r.prePointer) p := by
  have hspan : r.span = 0 := by rw [span_eq, hsame, gap_self]
  have hblock := hcovers.bytes_le hpos hr.pre_lt
  have hnonneg := bytes_nonneg (hpos _ hr.pre_lt)
  have hfit := hfirst (p.len + r.totBytes) (by omega) (by rwa [hspan] at hstay)
  refine le_trans ?_ hfit
  exact_mod_cast (by omega : bytes (r.packets r.prePointer) + p.len ≤ p.len + r.totBytes)

theorem piled_of_join (hfirst : FirstHolds A b) (hr : InRange r) (hpos : Positive r)
    (hcovers : Covers r) (hp : 0 < p.len) (hstay : A.intervalBlock (p.len + r.totBytes) ≤ r.span)
    (hroom : ¬HasRoom b r.tail.last p) (hr' : InRange (r'.count p))
    (htail : (r'.count p).tail = r.tail.place p (A.intervalBlock (p.len + r.totBytes))) :
    Piled A b (r'.count p) (r'.count p).prePointer := by
  have hjoin : r.tail.place p (A.intervalBlock (p.len + r.totBytes)) =
      ⟨r.totBytes + p.len, r.span, r.packets r.prePointer ++ [p]⟩ := if_pos hstay
  have hspan : (r'.count p).span = r.span := congrArg Tail.span (htail.trans hjoin)
  have hlast : (r'.count p).packets (r'.count p).prePointer = r.packets r.prePointer ++ [p] :=
    congrArg Tail.last (htail.trans hjoin)
  refine ⟨hr'.pre_lt, ?_, fun hsame => hroom ?_, .inl le_rfl⟩
  · rw [hlast, bytes_append, bytes_singleton]
    exact not_le.mp hroom
  · have hzero : r.span = 0 := by rw [← hspan, span_eq, hsame, gap_self]
    exact hasRoom_first hfirst hr hpos hcovers hp ((gap_eq_zero hr.now_lt).mp hzero).symm hstay

theorem Loading.place {ring : Ring τ} (f : Loading M s (p :: l) t) (hfit : t.needs A p ≤ block)
    (heq : t.ring.place p (t.needs A p) = .ok ring) : Loading M s l (t.placedIn p ring) := by
  have hp : 0 < p.len := (f.sized p List.mem_cons_self).1
  obtain ⟨i, hi, c, hput, hbytes, hlast⟩ := put_of_place f.inRange f.positive hp hfit heq
  exact ⟨hput.inRange f.inRange hi, hput.positive f.positive hlast, f.covers.put hi hput hbytes,
    f.round, fun p' hp' => f.sized p' (List.mem_cons_of_mem p hp')⟩

theorem Loaded.inRing (d : Loaded M s) (heq : inRing A s = .ok s') : Loaded M s' := by
  have hinput : s'.input = s.input := (inRing_frame heq).1
  have hends : InRange s'.ring ∧ Positive s'.ring ∧ Covers s'.ring ∧ ∀ p ∈ s'.inque, p.Sized M := by
    refine inRingLoop_rule (I := Loading M s)
      (J := fun t => InRange t.ring ∧ Positive t.ring ∧ Covers t.ring ∧ ∀ p ∈ t.inque, p.Sized M)
      ?_ ?_ ?_ ?_ ?_ ⟨d.inRange, d.positive, d.covers, rfl, d.waiting⟩ heq
    · exact fun p l t f _ => f.expired
    · exact fun p l t ring f _ _ hfit heq => f.place hfit heq
    · exact fun p l t f _ _ => ⟨f.inRange, f.positive, f.covers, f.expired.sized⟩
    · exact fun p l t f _ _ _ => ⟨f.inRange, f.positive, f.covers, f.sized⟩
    · exact fun t f => ⟨f.inRange, f.positive, f.covers, by simp⟩
  obtain ⟨hr, hpos, hcovers, hwaiting⟩ := hends
  exact ⟨hr, hpos, hcovers, hwaiting, hinput ▸ d.unread⟩

/-- What it makes of the blocks: none is over the bound, or one stays over it. -/
structure Filling (A : RingNum τ) (b : ℚ) (M : ℕ) (s : Sim τ) (l : List (Packet τ)) (t : Sim τ) :
    Prop extends Loading M s l t where
  blocks : (Level b t.ring ∧ (EachJoined A s.totRound (HasRoom b) s.ring.tail s.inque ↔
      EachJoined A s.totRound (HasRoom b) t.ring.tail l)) ∨
    ((∃ i, Piled A b t.ring i) ∧ ¬EachJoined A s.totRound (HasRoom b) s.ring.tail s.inque)

theorem Filling.expired (f : Filling A b M s (p :: l) t) (he : A.expired p.arrivalTime t.totRound) :
    Filling A b M s l (t.discard p) := by
  refine ⟨f.toLoading.expired, ?_⟩
  rcases f.blocks with ⟨hlevel, hiff⟩ | hpiled
  · exact .inl ⟨hlevel, hiff.trans (eachJoined_expired (f.round ▸ he))⟩
  · exact .inr hpiled

theorem Filling.place {ring : Ring τ} (hfirst : FirstHolds A b) (hM : (M : ℚ) ≤ b)
    (f : Filling A b M s (p :: l) t) (he : ¬A.expired p.arrivalTime t.totRound)
    (hlong : ¬A.tooLong p.len) (hfit : t.needs A p ≤ block)
    (heq : t.ring.place p (t.needs A p) = .ok ring) : Filling A b M s l (t.placedIn p ring) := by
  obtain ⟨hp, hpM⟩ := f.sized p List.mem_cons_self
  obtain ⟨hr', htail⟩ := tail_place f.inRange hfit heq
  refine ⟨f.toLoading.place hfit heq, ?_⟩
  rcases f.blocks with ⟨hlevel, hiff⟩ | ⟨⟨j, hpiled⟩, hno⟩
  · have hunfold : EachJoined A s.totRound (HasRoom b) t.ring.tail (p :: l) ↔
        (t.needs A p ≤ t.ring.tail.span → HasRoom b t.ring.tail.last p) ∧
          EachJoined A s.totRound (HasRoom b) (t.ring.tail.place p (t.needs A p)) l :=
      eachJoined_place (t := t.ring.tail) (f.round ▸ he) hlong hfit
    by_cases hroom : t.needs A p ≤ t.ring.tail.span → HasRoom b t.ring.tail.last p
    · obtain ⟨i, hi, c, hput, -, -⟩ := put_of_place f.inRange f.positive hp hfit heq
      have hlen : (p.len : ℚ) ≤ b := le_trans (by exact_mod_cast hpM) hM
      refine .inl ⟨level_put hlevel hput (bytes_place_le hlen hroom), ?_⟩
      rw [hiff, hunfold, and_iff_right hroom]
      exact iff_of_eq (congrArg (fun t => EachJoined A s.totRound (HasRoom b) t l) htail.symm)
    · have hno : ¬EachJoined A s.totRound (HasRoom b) s.ring.tail s.inque := by
        rw [hiff, hunfold]
        exact fun hand => hroom hand.1
      obtain ⟨hstay, hmore⟩ := Classical.not_imp.mp hroom
      exact .inr ⟨⟨_, piled_of_join hfirst f.inRange f.positive f.covers hp hstay hmore hr' htail⟩,
        hno⟩
  · exact .inr ⟨⟨j, hpiled.place f.inRange hp hfit heq⟩, hno⟩

theorem Filling.ends (f : Filling A b M s l t)
    (hstop : EachJoined A s.totRound (HasRoom b) t.ring.tail l) :
    Level b t.ring ↔ EachJoined A s.totRound (HasRoom b) s.ring.tail s.inque := by
  rcases f.blocks with ⟨hlevel, hiff⟩ | ⟨⟨i, hpiled⟩, hno⟩
  · exact iff_of_true hlevel (hiff.mpr hstop)
  · exact iff_of_false hpiled.not_level hno

/-- `in_ring` keeps all blocks within the bound exactly when each packet that it puts into the last
block finds room there. -/
theorem inRing_level_iff (hfirst : FirstHolds A b) (hM : (M : ℚ) ≤ b) (d : Loaded M s)
    (hlevel : Level b s.ring) (heq : inRing A s = .ok s') :
    Level b s'.ring ↔ EachJoined A s.totRound (HasRoom b) s.ring.tail s.inque := by
  refine inRingLoop_rule (I := Filling A b M s)
    (J := fun t => Level b t.ring ↔ EachJoined A s.totRound (HasRoom b) s.ring.tail s.inque)
    ?_ ?_ ?_ ?_ ?_
    ⟨⟨d.inRange, d.positive, d.covers, rfl, d.waiting⟩, .inl ⟨hlevel, Iff.rfl⟩⟩ heq
  · exact fun p l t f he => f.expired he
  · exact fun p l t ring f he hlong hfit heq => f.place hfirst hM he hlong hfit heq
  · exact fun p l t f he hlong => f.ends (eachJoined_stop (f.round ▸ he) (.inl hlong))
  · exact fun p l t f he _ hfull =>
      f.ends (eachJoined_stop (t := t.ring.tail) (f.round ▸ he) (.inr hfull))
  · exact fun t f => f.ends trivial

theorem Loaded.begin (d : Loaded M s) : Loaded M (s.begin A) := by
  obtain ⟨hwaiting, hunread⟩ := forall_begin (A := A) d.waiting d.unread
  exact ⟨d.inRange, d.positive, d.covers, hwaiting, hunread⟩

/-- In the next tick each packet that `in_ring` puts into the last block leaves at most `b` bytes
there. -/
def Sim.FillsTo (A : RingNum τ) (b : ℚ) (s : Sim τ) (_ : Unit) : Prop :=
  arriving A (s.totRound + 1) s.input ≠ [] →
    EachJoined A (s.totRound + 1) (HasRoom b) s.ring.tail (s.begin A).inque

instance (A : RingNum τ) (b : ℚ) (s : Sim τ) (c : Unit) : Decidable (s.FillsTo A b c) := by
  unfold Sim.FillsTo
  infer_instance

theorem Loaded.tick (d : Loaded M s) {c o : Unit} (heq : RingSim.tick A s c = .ok (o, s')) :
    Loaded M s' :=
  tick_rule d.begin (fun _ _ ht => d.begin.inRing ht) (fun _ d => d.finish) heq

theorem tick_within_iff (hfirst : FirstHolds A b) (hM : (M : ℚ) ≤ b) (d : Loaded M s)
    (hw : s.Within b) {c o : Unit} (heq : tick A s c = .ok (o, s')) :
    s'.Within b ↔ s.FillsTo A b c := by
  have hb : 0 ≤ b := le_trans (by positivity) hM
  obtain ⟨t, ht, rfl⟩ := tick_ok heq
  unfold Sim.FillsTo
  split_ifs at ht with hnone
  · rw [ht, finish_within (s := s.begin A) hb d.inRange]
    exact iff_of_true ⟨hw.level, hw.printed⟩ fun hne => absurd hnone hne
  · have hiff := inRing_level_iff hfirst hM (d.begin (A := A)) hw.level ht
    have hprinted : t.printed = s.printed := (inRing_frame ht).2.2
    rw [finish_within hb ((d.begin (A := A)).inRing ht).inRange, forall_prop_of_true hnone]
    refine Iff.trans ⟨fun h => h.level, fun h => ⟨h, ?_⟩⟩ hiff
    rw [hprinted]
    exact hw.printed

end Loop

theorem firstHolds_exact {rate : ℚ} (hrate : 0 < rate) (M : ℕ) :
    FirstHolds (.exact rate hrate) (rate * 1024 / block + M) := by
  intro t ht hle
  have hlt := bytes_lt_of_needs hrate ht hle
  have hshare : (((0 : ℤ) : ℚ) + 1) * share rate = rate * 1024 / block := by
    rw [Int.cast_zero, zero_add, one_mul]
    rfl
  rw [hshare] at hlt
  have hM : (0 : ℚ) ≤ M := Nat.cast_nonneg M
  linarith

/-- No block holds more than its share and one packet, and no call of `de_ring` prints more, in all
states of exactly those runs in which each packet that `in_ring` puts into the last block finds
room there. -/
theorem bursts_bounded_iff {rate : ℚ} (hrate : 0 < rate) (M : ℕ) (mem : ℕ → ℕ → Packet ℚ)
    {input : List (Packet ℚ)} (hlen : ∀ p ∈ input, p.Sized M) {h : List (Unit × Unit)} {s : Sim ℚ}
    (run : Run (tick (.exact rate hrate)) (Sim.new mem input) h s) :
    (∀ h' s', h' <+: h → Run (tick (.exact rate hrate)) (Sim.new mem input) h' s' →
      s'.Within (rate * 1024 / block + M)) ↔
    GuardedRun (tick (.exact rate hrate))
      (Sim.FillsTo (.exact rate hrate) (rate * 1024 / block + M)) (Sim.new mem input) h s := by
  have hfirst := firstHolds_exact hrate M
  have hM : (M : ℚ) ≤ rate * 1024 / block + M := le_add_of_nonneg_left (by positivity)
  have hb : (0 : ℚ) ≤ rate * 1024 / block + M := by positivity
  have hnew : (Sim.new mem input).Within (rate * 1024 / block + M) := by
    refine ⟨fun i _ => ?_, fun lines hlines => ?_⟩
    · change (bytes ((Ring.new mem).packets i) : ℚ) ≤ _
      rw [packets_new, bytes_nil]
      exact_mod_cast hb
    · cases hlines
  exact always_iff_guarded (I := fun s => s.Within (rate * 1024 / block + M)) (J := Loaded M)
    hnew (loaded_new mem hlen) (fun _ _ _ _ d heq => d.tick heq)
    (fun _ _ _ _ d hw heq => tick_within_iff hfirst hM d hw heq) run

def aheadSample : List (Packet ℚ) := [⟨0, 200⟩, ⟨11 / 10, 200⟩]

theorem bursts_bounded_iff_sample :
    ∃ s : Sim ℚ, s.ring.nowPostion = 1 ∧ s.ring.prePointer = 4 ∧
      s.Within (128 * 1024 / block + (200 : ℕ)) := by
  obtain ⟨h, s, run, hs⟩ := exists_guardedRun_of_exec
    (fun s : Sim ℚ => (s.ring.nowPostion, s.ring.prePointer)) (b := (1, 4))
    (show (execGuarded (tick ringSample)
      (Sim.FillsTo ringSample (128 * 1024 / block + (200 : ℕ)))
      (Sim.new memSample aheadSample) (List.replicate 19 ())).map _ = _ by decide +kernel)
  obtain ⟨hnow, hpre⟩ := Prod.mk.inj hs
  have hrun : Run (tick ringSample) (Sim.new memSample aheadSample) h s :=
    run.mono fun _ _ _ => trivial
  have hlen : ∀ p ∈ aheadSample, p.Sized 200 := by
    unfold Packet.Sized
    decide
  exact ⟨s, hnow, hpre, (bursts_bounded_iff (by norm_num) 200 memSample hlen hrun).mpr run h s
    (List.prefix_refl _) hrun⟩

/-- A third one comes when the first has left, and joins the second. -/
theorem packets_pile_up :
    ∃ h s, (∀ p ∈ aheadSample ++ [⟨21 / 10, 193⟩], p.Sized 200) ∧
      Run (tick ringSample) (Sim.new memSample (aheadSample ++ [⟨21 / 10, 193⟩])) h s ∧
      ¬s.Within (128 * 1024 / block + (200 : ℕ)) := by
  obtain ⟨h, s, run, hs⟩ := exists_run_of_exec (fun s : Sim ℚ => bytes (s.ring.packets 4)) (b := 393)
    (show (exec (tick ringSample) (Sim.new memSample (aheadSample ++ [⟨21 / 10, 193⟩]))
      (List.replicate 21 ())).toOption.map _ = _ by decide +kernel)
  refine ⟨h, s, ?_, run, fun hw => ?_⟩
  · unfold Packet.Sized
    decide
  · have hblock := hw.level 4 (by unfold block; norm_num)
    rw [hs] at hblock
    norm_num [block] at hblock

end MeasurementLimiter.RingSim
