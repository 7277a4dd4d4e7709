import MeasurementLimiter.SimFifo

namespace MeasurementLimiter.RingSim

open Cyclic Runs

variable {τ : Type} {r r' : Ring τ} {p : Packet τ} {ib : ℤ}

/-- What `in_ring` and the `de_ring` after it read of the ring: the bytes in all blocks, those in
the block at `now_postion`, and the links from there to `pre_pointer`. -/
structure Fill where
  tot : ℤ
  first : ℤ
  span : ℕ

def Ring.fill (r : Ring τ) : Fill := ⟨r.totBytes, bytes (r.packets r.nowPostion), r.span⟩

def Fill.place (f : Fill) (len ib : ℤ) : Fill where
  tot := f.tot + len
  first := if ib ≤ f.span then if f.span = 0 then f.first + len else f.first
    else if ib = block then len else f.first
  span := if ib ≤ f.span then f.span else if ib = block then 0 else ib.toNat

def Fill.left (n : ℕ) (f : Fill) : ℤ := if n % 10 = 0 then f.tot - f.first else f.tot

theorem fill_put {i : ℕ} {l : List (Packet τ)} {b : ℤ} (hput : r.Put r' i l b) :
    (r'.count p).fill = ⟨r.totBytes + p.len,
      if r.nowPostion = i then bytes l else bytes (r.packets r.nowPostion),
      gap block r.nowPostion i⟩ := by
  change (⟨r'.totBytes + p.len, bytes (r'.packets r'.nowPostion),
    gap block r'.nowPostion r'.prePointer⟩ : Fill) = _
  rw [hput.totBytes, hput.packets, hput.nowPostion, hput.prePointer, Function.update_apply,
    apply_ite bytes]

theorem fill_place (hr : InRange r) (hle : ib ≤ block) (heq : r.place p ib = .ok r') :
    InRange (r'.count p) ∧ (r'.count p).fill = r.fill.place p.len ib := by
  rcases place_ok hr.now_lt hr.pre_lt hle heq with ⟨hstay, hput⟩ | ⟨hlt, hput⟩
  · refine ⟨hput.inRange hr hr.pre_lt, ?_⟩
    have hfirst : r.span = 0 ↔ r.nowPostion = r.prePointer := gap_eq_zero hr.now_lt
    rw [fill_put hput]
    simp only [Fill.place, Ring.fill, hstay, if_true, hfirst]
    by_cases hsame : r.nowPostion = r.prePointer
    · rw [if_pos hsame, if_pos hsame, bytes_append, bytes_singleton, ← hsame, span_eq, ← hsame]
    · rw [if_neg hsame, if_neg hsame]
      rfl
  · have hround : shift block r.nowPostion ib.toNat < block := shift_lt hr.now_lt (by omega)
    refine ⟨hput.inRange hr hround, ?_⟩
    rw [fill_put hput]
    simp only [Fill.place, Ring.fill, not_le.mpr hlt, if_false]
    by_cases hib : ib = block
    · rw [if_pos hib, if_pos hib, hib, Int.toNat_natCast, shift_lap, if_pos rfl, gap_self,
        bytes_singleton]
    · have hgap := gap_shift hr.now_lt (show ib.toNat < block by omega)
      have hother : r.nowPostion ≠ shift block r.nowPostion ib.toNat := by
        rw [ne_eq, ← gap_eq_zero hr.now_lt, hgap]
        omega
      rw [if_neg hib, if_neg hib, if_neg hother, hgap]

theorem finish_totBytes (s : Sim τ) : s.finish.ring.totBytes = s.ring.fill.left s.totRound := by
  unfold Sim.finish Fill.left
  split_ifs
  · exact deRing_totBytes _ _
  · rfl

theorem InRange.finish {s : Sim τ} (hr : InRange s.ring) : InRange s.finish.ring := by
  unfold Sim.finish
  split_ifs
  · exact (hr.deRing s.totRound).statusUpdate
  · exact hr

def Sim.handled (s : Sim τ) : List (Packet τ) := s.placed ++ s.discarded ++ s.inque

theorem handled_finish (s : Sim τ) : s.finish.handled = s.handled := by
  obtain ⟨-, hinque, -, hplaced, hdiscarded⟩ := finish_frame s
  rw [Sim.handled, Sim.handled, hinque, hplaced, hdiscarded]

variable [LE τ] {A : RingNum τ} {s s' : Sim τ} {n : ℕ} {f : Fill} {l : List (Packet τ)}

/-- The head of `inque` has a reason to wait: it is not expired, and it does not fit. -/
def Sim.Waits (A : RingNum τ) (s : Sim τ) : Prop :=
  ∀ p ∈ s.inque.head?, ¬A.expired p.arrivalTime s.totRound ∧ block < s.needs A p

def Fill.Full (A : RingNum τ) (n : ℕ) (f : Fill) (p : Packet τ) : Prop :=
  block < A.intervalBlock (p.len + f.left n)

instance (A : RingNum τ) (n : ℕ) (f : Fill) (p : Packet τ) : Decidable (f.Full A n p) := by
  unfold Fill.Full
  infer_instance

/-- `in_ring` leaves a packet with a reason to wait, when it is called in tick `n`: a packet behind one
that is too long is not expired and does not fit, and where it stops at one that does not fit, the block
that is printed in this tick does not make enough room. -/
def Stops (A : RingNum τ) (n : ℕ) : Fill → List (Packet τ) → Prop
  | _, [] => True
  | f, p :: l =>
    if A.expired p.arrivalTime n then Stops A n f l
    else if A.tooLong p.len then ∀ p' ∈ l.head?, ¬A.expired p'.arrivalTime n ∧ f.Full A n p'
    else if block < A.intervalBlock (p.len + f.tot) then n % 10 = 0 → f.Full A n p
    else Stops A n (f.place p.len (A.intervalBlock (p.len + f.tot))) l

instance decidableStops (A : RingNum τ) (n : ℕ) :
    (f : Fill) → (l : List (Packet τ)) → Decidable (Stops A n f l)
  | _, [] => isTrue trivial
  | f, p :: l =>
    have := decidableStops A n f l
    have := decidableStops A n (f.place p.len (A.intervalBlock (p.len + f.tot))) l
    inferInstanceAs (Decidable (if A.expired p.arrivalTime n then Stops A n f l
      else if A.tooLong p.len then ∀ p' ∈ l.head?, ¬A.expired p'.arrivalTime n ∧ f.Full A n p'
      else if block < A.intervalBlock (p.len + f.tot) then n % 10 = 0 → f.Full A n p
      else Stops A n (f.place p.len (A.intervalBlock (p.len + f.tot))) l))

theorem full_iff (hfull : block < A.intervalBlock (p.len + f.tot)) :
    f.Full A n p ↔ (n % 10 = 0 → f.Full A n p) := by
  refine ⟨fun h _ => h, fun h => ?_⟩
  by_cases hn : n % 10 = 0
  · exact h hn
  · rwa [Fill.Full, Fill.left, if_neg hn]

theorem stops_expired (he : A.expired p.arrivalTime n) :
    Stops A n f (p :: l) ↔ Stops A n f l := by
  rw [Stops, if_pos he]

theorem stops_long (he : ¬A.expired p.arrivalTime n) (hlong : A.tooLong p.len) :
    Stops A n f (p :: l) ↔ ∀ p' ∈ l.head?, ¬A.expired p'.arrivalTime n ∧ f.Full A n p' := by
  rw [Stops, if_neg he, if_pos hlong]

theorem stops_full (he : ¬A.expired p.arrivalTime n) (hlong : ¬A.tooLong p.len)
    (hfull : block < A.intervalBlock (p.len + f.tot)) :
    Stops A n f (p :: l) ↔ f.Full A n p := by
  rw [Stops, if_neg he, if_neg hlong, if_pos hfull, ← full_iff hfull]

theorem stops_place (he : ¬A.expired p.arrivalTime n) (hlong : ¬A.tooLong p.len)
    (hfit : A.intervalBlock (p.len + f.tot) ≤ block) : Stops A n f (p :: l) ↔
      Stops A n (f.place p.len (A.intervalBlock (p.len + f.tot))) l := by
  rw [Stops, if_neg he, if_neg hlong, if_neg (not_lt.mpr hfit)]

/-- Nothing waits without reason after the next tick.  If no packet arrives in it, the head of `inque`
is not expired then, and the block that is printed does not make enough room for it. -/
def Sim.Served (A : RingNum τ) (s : Sim τ) (_ : Unit) : Prop :=
  if arriving A (s.totRound + 1) s.input = [] then
    ∀ p ∈ s.inque.head?, ¬A.expired p.arrivalTime (s.totRound + 1) ∧
      ((s.totRound + 1) % 10 = 0 → s.ring.fill.Full A (s.totRound + 1) p)
  else Stops A (s.totRound + 1) s.ring.fill (s.begin A).inque

instance (A : RingNum τ) (s : Sim τ) (c : Unit) : Decidable (s.Served A c) := by
  unfold Sim.Served
  infer_instance

theorem finish_waits (s : Sim τ) : s.finish.Waits A ↔
    ∀ p ∈ s.inque.head?, ¬A.expired p.arrivalTime s.totRound ∧ s.ring.fill.Full A s.totRound p := by
  obtain ⟨-, hinque, hround, -, -⟩ := finish_frame s
  unfold Sim.Waits Sim.needs Fill.Full
  rw [hinque, hround, finish_totBytes]

theorem inRing_waits_iff (hr : InRange s.ring) (heq : inRing A s = .ok s') :
    InRange s'.ring ∧ (s'.finish.Waits A ↔ Stops A s.totRound s.ring.fill s.inque) := by
  refine inRingLoop_rule
    (I := fun l t => t.totRound = s.totRound ∧ InRange t.ring ∧
      (Stops A s.totRound t.ring.fill l ↔ Stops A s.totRound s.ring.fill s.inque))
    (J := fun t => InRange t.ring ∧ (t.finish.Waits A ↔ Stops A s.totRound s.ring.fill s.inque))
    ?_ ?_ ?_ ?_ ?_ ⟨rfl, hr, Iff.rfl⟩ heq
  -- only a loop that stops at a packet leaves one, and says why
  · rintro p l t ⟨hn, hrt, hiff⟩ he
    exact ⟨hn, hrt, (stops_expired (hn ▸ he)).symm.trans hiff⟩
  · rintro p l t ring ⟨hn, hrt, hiff⟩ he hlong hfit hplace
    obtain ⟨hr', hfill⟩ := fill_place hrt hfit hplace
    refine ⟨hn, hr', ?_⟩
    rw [← hiff, stops_place (f := t.ring.fill) (hn ▸ he) hlong hfit]
    exact iff_of_eq (congrArg (fun f => Stops A s.totRound f l) hfill)
  · rintro p l t ⟨hn, hrt, hiff⟩ he hlong
    refine ⟨hrt, ?_⟩
    rw [finish_waits, ← hiff, ← hn, stops_long he hlong]
    rfl
  · rintro p l t ⟨hn, hrt, hiff⟩ he hlong hfull
    refine ⟨hrt, ?_⟩
    rw [finish_waits, ← hiff, ← hn, stops_full (f := t.ring.fill) he hlong hfull]
    change (∀ p' ∈ some p, _) ↔ _
    simp [he]
  · rintro t ⟨hn, hrt, hiff⟩
    refine ⟨hrt, ?_⟩
    rw [finish_waits, ← hiff]
    exact iff_of_true (fun p hp => absurd hp (by simp)) trivial

theorem InRange.tick (hr : InRange s.ring) {c o : Unit} (heq : RingSim.tick A s c = .ok (o, s')) :
    InRange s'.ring :=
  tick_rule (I := fun s => InRange s.ring) hr
    (fun _ _ ht => (inRing_waits_iff (s := s.begin A) hr ht).1) (fun _ hr => hr.finish) heq

theorem tick_waits_iff (hr : InRange s.ring) (hw : s.Waits A) {c o : Unit}
    (heq : tick A s c = .ok (o, s')) : s'.Waits A ↔ s.Served A c := by
  obtain ⟨t, ht, rfl⟩ := tick_ok heq
  unfold Sim.Served
  split_ifs at ht ⊢ with hnone
  · have hinque : (s.begin A).inque = s.inque := by
      change s.inque ++ arriving A (s.totRound + 1) s.input = _
      rw [hnone, List.append_nil]
    rw [ht, finish_waits, hinque]
    refine forall₂_congr fun p hp => and_congr_right fun _ => ?_
    exact full_iff (f := s.ring.fill) (hw p hp).2
  · exact (inRing_waits_iff (s := s.begin A) hr ht).2

def Sim.Unlost (A : RingNum τ) (s : Sim τ) (_ : Unit) : Prop :=
  arriving A (s.totRound + 1) s.input ≠ [] →
    NoLoss A (s.totRound + 1) s.ring.vacant s.ring.totBytes (s.begin A).inque

instance (A : RingNum τ) (s : Sim τ) (c : Unit) : Decidable (s.Unlost A c) := by
  unfold Sim.Unlost
  infer_instance

def Sim.Unwanted (A : RingNum τ) (s : Sim τ) : Prop :=
  ∀ p ∈ s.discarded, (∃ n ≤ s.totRound, A.expired p.arrivalTime n) ∨ A.tooLong p.len

theorem Sim.Unwanted.discard (h : s.Unwanted A)
    (hp : A.expired p.arrivalTime s.totRound ∨ A.tooLong p.len) : (s.discard p).Unwanted A := by
  intro p' hp'
  rcases List.mem_append.mp hp' with hp' | hp'
  · exact h p' hp'
  · rw [List.mem_singleton.mp hp']
    exact hp.imp_left fun he => ⟨s.totRound, le_rfl, he⟩

theorem inRing_handled (hunwanted : s.Unwanted A) (heq : inRing A s = .ok s') :
    s'.handled.Perm s.handled ∧ s'.Unwanted A := by
  refine inRingLoop_rule
    (I := fun l t => (t.placed ++ t.discarded ++ l).Perm s.handled ∧ t.Unwanted A)
    (J := fun t => t.handled.Perm s.handled ∧ t.Unwanted A) ?_ ?_ ?_ ?_ ?_
    ⟨.refl _, hunwanted⟩ heq
  · rintro p l t ⟨hperm, hu⟩ he
    refine ⟨?_, hu.discard (.inl he)⟩
    simpa [Sim.discard] using hperm
  · rintro p l t ring ⟨hperm, hu⟩ - - - -
    refine ⟨.trans ?_ hperm, hu⟩
    simp only [Sim.placedIn, List.append_assoc, List.singleton_append]
    exact List.perm_middle.symm.append_left _
  · rintro p l t ⟨hperm, hu⟩ - hlong
    refine ⟨?_, hu.discard (.inr hlong)⟩
    simpa [Sim.handled, Sim.discard] using hperm
  · exact fun p l t h _ _ _ => h
  · exact fun t h => h

theorem Sim.Unwanted.finish (h : s.Unwanted A) : s.finish.Unwanted A := by
  obtain ⟨-, -, hround, -, hdiscarded⟩ := finish_frame s
  unfold Sim.Unwanted
  rw [hround, hdiscarded]
  exact h

theorem Sim.Unwanted.begin (h : s.Unwanted A) : (s.begin A).Unwanted A := by
  intro p hp
  rcases List.mem_append.mp hp with hp | hp
  · exact (h p hp).imp_left fun ⟨n, hn, he⟩ => ⟨n, Nat.le_succ_of_le hn, he⟩
  · have he : A.expired p.arrivalTime (s.totRound + 1) :=
      List.mem_takeWhile_imp (p := fun p : Packet τ => A.expired p.arrivalTime (s.totRound + 1)) hp
    exact .inl ⟨_, le_rfl, he⟩

theorem handled_begin (A : RingNum τ) (s : Sim τ) : (s.begin A).handled.Perm
    (s.handled ++ (skipped A (s.totRound + 1) s.input ++ arriving A (s.totRound + 1) s.input)) := by
  simp only [Sim.handled, Sim.begin, List.append_assoc]
  refine (List.Perm.append_left _ ?_).append_left _
  simp only [← List.append_assoc]
  exact List.perm_append_comm.append_right _

section Arrivals

variable {τ : Type} [Preorder τ] {A : RingNum τ} {s s' : Sim τ} {input : List (Packet τ)}

/-- The packets that have arrived are those that left the input. -/
structure Accounted (A : RingNum τ) (input : List (Packet τ)) (s : Sim τ) : Prop where
  unwanted : s.Unwanted A
  taken : ∃ taken, input = taken ++ s.input ∧ s.handled.Perm taken ∧
    ∀ p ∈ taken, A.arrived p.arrivalTime s.totRound

theorem accounted_new (mem : ℕ → ℕ → Packet τ) (input : List (Packet τ)) :
    Accounted A input (Sim.new mem input) :=
  ⟨fun p hp => absurd hp (by simp [Sim.new]), [], rfl, .refl _, by simp⟩

theorem Accounted.begin (a : Accounted A input s) : Accounted A input (s.begin A) := by
  obtain ⟨taken, hinput, hperm, harrived⟩ := a.taken
  refine ⟨a.unwanted.begin, taken ++ (skipped A (s.totRound + 1) s.input ++
    arriving A (s.totRound + 1) s.input), ?_, (handled_begin A s).trans (hperm.append_right _), ?_⟩
  · rw [hinput, List.append_assoc]
    exact congrArg _ (input_split A (s.totRound + 1) s.input).symm
  · intro p hp
    rcases List.mem_append.mp hp with hp | hp
    · exact A.arrived_mono le_rfl (Nat.le_succ _) (harrived p hp)
    · rcases List.mem_append.mp hp with hp | hp
      · exact A.arrived_of_expired (List.mem_takeWhile_imp (p := fun p : Packet τ =>
          A.expired p.arrivalTime (s.totRound + 1)) hp)
      · exact List.mem_takeWhile_imp (p := fun p : Packet τ =>
          A.arrived p.arrivalTime (s.totRound + 1)) hp

theorem Accounted.inRing (a : Accounted A input s) (heq : RingSim.inRing A s = .ok s') :
    Accounted A input s' := by
  obtain ⟨hhandled, hunwanted⟩ := inRing_handled a.unwanted heq
  obtain ⟨hinput, hround, -⟩ := inRing_frame heq
  obtain ⟨taken, htaken, hperm, harrived⟩ := a.taken
  exact ⟨hunwanted, taken, hinput ▸ htaken, hhandled.trans hperm, hround ▸ harrived⟩

theorem Accounted.finish (a : Accounted A input s) : Accounted A input s.finish := by
  obtain ⟨hinput, -, hround, -, -⟩ := finish_frame s
  obtain ⟨taken, htaken, hperm, harrived⟩ := a.taken
  exact ⟨a.unwanted.finish, taken, hinput ▸ htaken, handled_finish s ▸ hperm, hround ▸ harrived⟩

theorem not_arrived_of_coming {n : ℕ} {l : List (Packet τ)}
    (hsorted : (l.map Packet.arrivalTime).Pairwise (· ≤ ·)) {p : Packet τ}
    (hp : p ∈ coming A n l) : ¬A.arrived p.arrivalTime n := by
  have hrest : (l.dropWhile fun p => A.expired p.arrivalTime n).Pairwise
      fun p p' => p.arrivalTime ≤ p'.arrivalTime :=
    (List.pairwise_map.mp hsorted).sublist (List.dropWhile_sublist _)
  unfold coming at hp
  generalize l.dropWhile (fun p => A.expired p.arrivalTime n) = l' at hp hrest
  induction l' with
  | nil => cases hp
  | cons p' l' ih =>
    obtain ⟨hfirst, hrest⟩ := List.pairwise_cons.mp hrest
    rw [List.dropWhile_cons] at hp
    split_ifs at hp with harrived
    · exact ih hp hrest
    · rcases List.mem_cons.mp hp with rfl | hp
      · exact harrived
      · exact fun hlater => harrived (A.arrived_mono (hfirst p hp) le_rfl hlater)

theorem tick_input {c o : Unit} (heq : tick A s c = .ok (o, s')) :
    s'.input = coming A (s.totRound + 1) s.input ∧ s'.totRound = s.totRound + 1 := by
  obtain ⟨t, ht, rfl⟩ := tick_ok heq
  obtain ⟨hinput, -, hround, -, -⟩ := finish_frame t
  rw [hinput, hround]
  split_ifs at ht
  · rw [ht]
    exact ⟨rfl, rfl⟩
  · obtain ⟨hinput, hround, -⟩ := inRing_frame ht
    exact ⟨hinput, hround⟩

theorem Accounted.tick (a : Accounted A input s) {c o : Unit}
    (heq : RingSim.tick A s c = .ok (o, s')) : Accounted A input s' :=
  tick_rule a.begin (fun _ _ ht => a.begin.inRing ht) (fun _ a => a.finish) heq

theorem Queued.tick (q : Queued s) {c o : Unit} (hloss : s.Unlost A c)
    (heq : RingSim.tick A s c = .ok (o, s')) : Queued s' :=
  tick_rule q.begin (fun _ hnone ht => q.begin.inRing (hloss hnone) ht) (fun _ q => q.finish) heq

/-- Nothing waits without reason after any tick of exactly those runs whose ticks all find the
packets of `inque` served.  Where no tick overwrites a packet, each packet that has arrived was
printed, is in the ring, was thrown away because it was expired or too long, or waits. -/
theorem waits_and_accounted (A : RingNum τ) (mem : ℕ → ℕ → Packet τ)
    (hsorted : (input.map Packet.arrivalTime).Pairwise (· ≤ ·)) {h : List (Unit × Unit)}
    (run : Run (tick A) (Sim.new mem input) h s) :
    ((∀ h' s', h' <+: h → Run (tick A) (Sim.new mem input) h' s' → s'.Waits A) ↔
      GuardedRun (tick A) (Sim.Served A) (Sim.new mem input) h s) ∧
    (GuardedRun (tick A) (Sim.Unlost A) (Sim.new mem input) h s → h ≠ [] →
      (s.printedPackets ++ s.ring.stored ++ s.discarded ++ s.inque).Perm
        (input.filter fun p => A.arrived p.arrivalTime s.totRound) ∧
      ∀ p ∈ s.discarded, (∃ n ≤ s.totRound, A.expired p.arrivalTime n) ∨ A.tooLong p.len) := by
  refine ⟨?_, fun run' hne => ?_⟩
  · exact always_iff_guarded (I := fun s => s.Waits A) (J := fun s => InRange s.ring)
      (fun p hp => absurd hp (by simp [Sim.new])) ⟨block_pos, block_pos⟩
      (fun _ _ _ _ hr heq => hr.tick heq) (fun _ _ _ _ hr hw heq => tick_waits_iff hr hw heq) run
  · have hq : Queued s := run'.keeps (queued_new mem input) fun _ _ _ _ q hloss heq => q.tick hloss heq
    obtain ⟨a, hunread⟩ := run'.invariant
      (I := fun h s => Accounted A input s ∧
        (h ≠ [] → ∀ p ∈ s.input, ¬A.arrived p.arrivalTime s.totRound))
      ⟨accounted_new mem input, fun hne => absurd rfl hne⟩ fun h s c o s' hacc _ heq => by
        have a := hacc.1
        refine ⟨a.tick heq, fun _ p hp => ?_⟩
        obtain ⟨hinput, hround⟩ := tick_input heq
        obtain ⟨taken, htaken, -⟩ := a.taken
        rw [hinput] at hp
        rw [hround]
        refine not_arrived_of_coming (hsorted.sublist ?_) hp
        rw [htaken, List.map_append]
        exact List.sublist_append_right _ _
    obtain ⟨taken, htaken, hperm, harrived⟩ := a.taken
    refine ⟨?_, a.unwanted⟩
    rw [htaken, List.filter_append, List.filter_eq_self.mpr harrived,
      List.filter_eq_nil_iff.mpr (hunread hne), List.append_nil, hq.order]
    exact hperm

end Arrivals

def waitSample : List (Packet ℚ) := [⟨0, 100⟩, ⟨0, 100000⟩, ⟨1, 65536⟩]

theorem waits_and_accounted_sample :
    ∃ s : Sim ℚ, s.printedPackets = [⟨0, 100⟩] ∧ s.inque = [⟨1, 65536⟩] ∧ s.Waits ringSample ∧
      (s.printedPackets ++ s.ring.stored ++ s.discarded ++ s.inque).Perm
        (waitSample.filter fun p => ringSample.arrived p.arrivalTime s.totRound) := by
  obtain ⟨h, s, run, hs⟩ := exists_guardedRun_of_exec
    (fun s : Sim ℚ => (s.printedPackets, s.inque)) (b := ([⟨0, 100⟩], [⟨1, 65536⟩]))
    (show (execGuarded (tick ringSample) (fun s c => s.Served ringSample c ∧ s.Unlost ringSample c)
      (Sim.new memSample waitSample) (List.replicate 10 ())).map _ = _ by decide +kernel)
  obtain ⟨hprinted, hinque⟩ := Prod.mk.inj hs
  have hrun : Run (tick ringSample) (Sim.new memSample waitSample) h s :=
    run.mono fun _ _ _ => trivial
  obtain ⟨hwaits, haccounted⟩ := waits_and_accounted ringSample memSample (by decide +kernel) hrun
  have hne : h ≠ [] := by
    rintro rfl
    rw [hrun.unique (D := fun _ _ => True) .nil] at hinque
    cases hinque
  exact ⟨s, hprinted, hinque, hwaits.mpr (run.mono fun _ _ hC => hC.1) h s (List.prefix_refl _) hrun,
    (haccounted (run.mono fun _ _ hC => hC.2) hne).1⟩

/-- Behind a packet that is too long, a small packet waits at an empty ring. -/
theorem long_packet_stops :
    ∃ h s, (([⟨0, 200000⟩, ⟨0, 100⟩] : List (Packet ℚ)).map Packet.arrivalTime).Pairwise (· ≤ ·) ∧
      Run (tick ringSample) (Sim.new memSample [⟨0, 200000⟩, ⟨0, 100⟩]) h s ∧
      ¬s.Waits ringSample := by
  obtain ⟨h, s, run, hs⟩ := exists_run_of_exec (fun s : Sim ℚ => (s.inque, s.ring.totBytes))
    (b := ([⟨0, 100⟩], 0))
    (show (exec (tick ringSample) (Sim.new memSample [⟨0, 200000⟩, ⟨0, 100⟩])
      [()]).toOption.map _ = _ by decide +kernel)
  obtain ⟨hinque, htot⟩ := Prod.mk.inj hs
  refine ⟨h, s, by decide +kernel, run, fun hw => ?_⟩
  have hfull := (hw ⟨0, 100⟩ (by rw [hinque]; rfl)).2
  rw [Sim.needs, htot] at hfull
  exact absurd hfull (by decide +kernel)

end MeasurementLimiter.RingSim
