import MeasurementLimiter.SimWait

namespace MeasurementLimiter.RingSim

open Cyclic Runs

variable {τ : Type} {r r' : Ring τ} {p : Packet τ} {s t s' : Sim τ} {new : List (List (Line τ))}

/-- The blocks of `s` in the later state `t`: those whose turn has come were printed, with what
joined their packets, and the others have come nearer. -/
structure Turns (s t : Sim τ) (new : List (List (Line τ))) : Prop where
  printed : t.printed = s.printed ++ new
  placed : s.placed <+: t.placed
  ahead : ∀ j < block, new.length ≤ j → s.ring.nth j <+: t.ring.nth (j - new.length)
  gone : ∀ j < block, ∀ hj : j < new.length, s.ring.nth j <+: new[j].map Line.packet

theorem Turns.refl (s : Sim τ) : Turns s s [] where
  printed := (List.append_nil _).symm
  placed := List.prefix_refl _
  ahead _ _ _ := List.prefix_refl _
  gone _ _ hj := absurd hj (Nat.not_lt_zero _)

theorem nth_put {i : ℕ} {b : ℤ} (hput : r.Put r' i (r.packets i ++ [p]) b) (j : ℕ) :
    r.nth j <+: (r'.count p).nth j := by
  change _ <+: r'.packets (shift block r'.nowPostion j)
  rw [hput.nowPostion, hput.packets, Function.update_apply]
  split_ifs with hi
  · rw [Ring.nth, hi]
    exact List.prefix_append _ _
  · exact List.prefix_refl _

theorem Turns.put {ring : Ring τ} (h : Turns s t new) {i : ℕ} {b : ℤ}
    (hput : t.ring.Put ring i (t.ring.packets i ++ [p]) b) : Turns s (t.placedIn p ring) new where
  printed := h.printed
  placed := h.placed.trans (List.prefix_append _ _)
  ahead j hj hle := (h.ahead j hj hle).trans (nth_put hput _)
  gone := h.gone

theorem Turns.finish (h : Turns s t new) (hr : InRange t.ring) : Turns s t.finish
    (if t.totRound % 10 = 0 then new ++ [(RingSim.deRing t.totRound t.ring).1] else new) := by
  unfold Sim.finish
  split_ifs with htenth
  · have hr' := hr.deRing t.totRound
    have hempty : (RingSim.deRing t.totRound t.ring).2.packets
        (RingSim.deRing t.totRound t.ring).2.nowPostion = [] := by
      rw [(deRing_pointers _ _).1, deRing_packets, Function.update_self]
    have hprinted : t.deRing.statusUpdate.printed = t.printed ++
        [(RingSim.deRing t.totRound t.ring).1] := rfl
    refine ⟨by rw [hprinted, h.printed, List.append_assoc], h.placed, fun j hj hle => ?_,
      fun j hj hlt => ?_⟩
    · rw [List.length_append, List.length_singleton] at hle ⊢
      have hnext : t.deRing.statusUpdate.ring.nth (j - (new.length + 1)) =
          t.ring.nth (j - new.length) := by
        have hstep := nth_statusUpdate hr' hempty (j := j - (new.length + 1)) (by omega)
        rw [if_neg (by omega), nth_deRing hr _ (by omega), if_neg (by omega)] at hstep
        rw [show j - new.length = j - (new.length + 1) + 1 by omega]
        exact hstep
      rw [hnext]
      exact h.ahead j hj (by omega)
    · rw [List.length_append, List.length_singleton] at hlt
      rcases Nat.lt_succ_iff_lt_or_eq.mp hlt with hlt | rfl
      · rw [List.getElem_append_left hlt]
        exact h.gone j hj hlt
      · have hfirst := h.ahead _ hj le_rfl
        rw [Nat.sub_self, nth_zero hr] at hfirst
        rw [List.getElem_concat_length rfl, deRing_lines]
        exact hfirst
  · exact ⟨h.printed, h.placed, h.ahead, h.gone⟩

structure InTurn (s t : Sim τ) : Prop extends Queued t where
  turns : ∃ new, Turns s t new ∧ t.totRound / 10 = s.totRound / 10 + new.length

theorem Queued.inTurn (q : Queued s) : InTurn s s := ⟨q, [], .refl s, rfl⟩

theorem Turns.stored_le (h : Turns s t new) (hlen : block ≤ new.length)
    {m : ℕ} (hm : m ≤ block) :
    ((List.range m).flatMap s.ring.nth).length ≤ (new.take m).flatten.length := by
  induction m with
  | zero => exact Nat.zero_le _
  | succ m ih =>
    have hlt : m < new.length := by omega
    have hgone := (h.gone m hm hlt).length_le
    have hrest := ih (by omega)
    rw [List.length_map] at hgone
    rw [List.range_succ, List.flatMap_append, List.flatMap_singleton, List.length_append,
      List.take_succ_eq_append_getElem hlt, List.flatten_append, List.flatten_singleton,
      List.length_append]
    omega

theorem Queued.printed_of_round (q : Queued s) (hturn : InTurn s t)
    (hround : s.totRound + 10 * block ≤ t.totRound) : s.placed <+: t.printedPackets := by
  obtain ⟨new, hturns, hlen⟩ := hturn.turns
  have hblock : block ≤ new.length := by omega
  have hprinted : t.printedPackets = s.printedPackets ++ new.flatten.map Line.packet := by
    rw [Sim.printedPackets, hturns.printed, List.flatten_append, List.map_append]
    rfl
  refine List.prefix_of_prefix_length_le hturns.placed (hturn.order ▸ List.prefix_append _ _) ?_
  have hle := hturns.stored_le hblock le_rfl
  have htake := (List.take_sublist block new).flatten.length_le
  rw [← q.consistent.stored_eq q.inRange] at hle
  rw [← q.order, hprinted, List.length_append, List.length_append, List.length_map]
  omega

variable [LE τ] {A : RingNum τ}

theorem Queued.inRing_rule {I : Sim τ → Prop} (q : Queued s)
    (hloss : NoLoss A s.totRound s.ring.vacant s.ring.totBytes s.inque)
    (hother : ∀ t t' : Sim τ, t'.ring = t.ring → t'.printed = t.printed → t'.placed = t.placed →
      I t → I t')
    (hput : ∀ t p ring i b, t.ring.Put ring i (t.ring.packets i ++ [p]) b → I t →
      I (t.placedIn p ring)) (h : I s) (heq : RingSim.inRing A s = .ok s') : I s' := by
  refine inRingLoop_rule
    (I := fun l t => t.totRound = s.totRound ∧ Queued t ∧ I t ∧
      ∃ vacant : Bool, (vacant → t.ring.vacant) ∧ NoLoss A s.totRound vacant t.ring.totBytes l)
    (J := I) ?_ ?_ ?_ ?_ ?_ ⟨rfl, q, h, _, id, hloss⟩ heq
  · rintro p l t ⟨hn, qt, ht, vacant, hv, hno⟩ he
    exact ⟨hn, ⟨qt.inRange, qt.consistent, qt.order⟩, hother t _ rfl rfl rfl ht, vacant, hv,
      (noLoss_expired (hn ▸ he)).mp hno⟩
  · rintro p l t ring ⟨hn, qt, ht, vacant, hv, hno⟩ he hlong hfit hplace
    obtain ⟨hround, hno⟩ := (noLoss_place (hn ▸ he) hlong hfit).mp hno
    obtain ⟨i, hi, hp, hlast, -⟩ := qt.consistent.put_of_place qt.inRange hfit
      (fun hib => vacant_iff.mp (hv (hround hib))) hplace
    have htot : (ring.count p).totBytes = t.ring.totBytes + p.len :=
      congrArg (· + p.len) hp.totBytes
    have hstored := qt.consistent.stored_put qt.inRange hi hp hlast
    refine ⟨hn, ⟨hp.inRange qt.inRange hi, qt.consistent.put hi hp hlast, ?_⟩,
      hput t p ring i _ hp ht, false, fun hf => absurd hf (by decide), htot ▸ hno⟩
    change t.printedPackets ++ (ring.count p).stored = t.placed ++ [p]
    rw [hstored, ← qt.order, List.append_assoc]
  · exact fun p l t ⟨_, _, ht, _⟩ _ _ => hother t _ rfl rfl rfl ht
  · exact fun p l t ⟨_, _, ht, _⟩ _ _ _ => hother t _ rfl rfl rfl ht
  · exact fun t ⟨_, _, ht, _⟩ => hother t _ rfl rfl rfl ht

section Ticks

variable {τ : Type} [Preorder τ] {A : RingNum τ} {s t s' : Sim τ} {input : List (Packet τ)}

theorem InTurn.tick (h : InTurn s t) {c o : Unit} (hloss : t.Unlost A c)
    (heq : RingSim.tick A t c = .ok (o, s')) : InTurn s s' := by
  have q := h.toQueued.tick hloss heq
  refine ⟨q, ?_⟩
  obtain ⟨new, hturns, hlen⟩ := h.turns
  have hbegin : Turns s (t.begin A) new := ⟨hturns.printed, hturns.placed, hturns.ahead, hturns.gone⟩
  obtain ⟨u, hu, rfl⟩ := tick_ok heq
  obtain ⟨hround, hr, hu⟩ : u.totRound = t.totRound + 1 ∧ InRange u.ring ∧ Turns s u new := by
    split_ifs at hu with hnone
    · rw [hu]
      exact ⟨rfl, h.inRange, hbegin⟩
    · have hno := hloss hnone
      refine ⟨(inRing_frame hu).2.1, (h.toQueued.begin.inRing hno hu).inRange, ?_⟩
      refine h.toQueued.begin.inRing_rule (I := fun u => Turns s u new) hno ?_ ?_ hbegin hu
      · intro u u' hring hprinted hplaced hu
        exact ⟨hprinted ▸ hu.printed, hplaced ▸ hu.placed, hring ▸ hu.ahead, hu.gone⟩
      · exact fun u p ring i b hput hu => hu.put hput
  refine ⟨_, hu.finish hr, ?_⟩
  rw [(finish_frame u).2.2.1, hround]
  split_ifs
  · rw [List.length_append, List.length_singleton]
    omega
  · omega

theorem turns_of_run {mem : ℕ → ℕ → Packet τ} {h h' : List (Unit × Unit)}
    (run : GuardedRun (RingSim.tick A) (Sim.Unlost A) (Sim.new mem input) h s)
    (run' : GuardedRun (RingSim.tick A) (Sim.Unlost A) s h' s') : Queued s ∧ InTurn s s' := by
  have q : Queued s := run.keeps (queued_new mem input) fun _ _ _ _ q hloss heq => q.tick hloss heq
  exact ⟨q, run'.keeps q.inTurn fun _ _ _ _ h hloss heq => h.tick hloss heq⟩

/-- From any state of a run that overwrites no packet, the blocks of the ring are printed in turn,
one in ten ticks, each with all its packets in their order. -/
theorem printed_in_turn (A : RingNum τ) (mem : ℕ → ℕ → Packet τ) {h h' : List (Unit × Unit)}
    (run : GuardedRun (RingSim.tick A) (Sim.Unlost A) (Sim.new mem input) h s)
    (run' : GuardedRun (RingSim.tick A) (Sim.Unlost A) s h' s') :
    ∃ new, s'.printed = s.printed ++ new ∧ s'.totRound / 10 = s.totRound / 10 + new.length ∧
      ∀ j < block, ∀ hj : j < new.length, s.ring.nth j <+: new[j].map Line.packet := by
  obtain ⟨-, hturn⟩ := turns_of_run run run'
  obtain ⟨new, hturns, hlen⟩ := hturn.turns
  exact ⟨new, hturns.printed, hlen, hturns.gone⟩

def delaySample (input : List (Packet ℚ)) (n : ℕ) : Sim ℚ :=
  ((execGuarded (RingSim.tick ringSample) (Sim.Unlost ringSample) (Sim.new memSample input)
    (List.replicate n ())).map Prod.snd).getD (Sim.new memSample [])

theorem delaySample_run (input : List (Packet ℚ)) (n : ℕ)
    (he : (execGuarded (RingSim.tick ringSample) (Sim.Unlost ringSample) (Sim.new memSample input)
      (List.replicate n ())).isSome) :
    ∃ h, GuardedRun (RingSim.tick ringSample) (Sim.Unlost ringSample) (Sim.new memSample input) h
      (delaySample input n) := by
  obtain ⟨r, hr⟩ := Option.isSome_iff_exists.mp he
  have hlast : delaySample input n = r.2 := by
    rw [delaySample, hr]
    rfl
  rw [hlast]
  exact ⟨r.1, guardedRun_of_exec hr⟩

theorem printed_in_turn_sample :
    ∃ s' : Sim ℚ, (delaySample [⟨0, 100⟩, ⟨1 / 2, 65536⟩] 9).ring.nth 0 = [⟨0, 100⟩] ∧
      ∃ new, s'.printed = (delaySample [⟨0, 100⟩, ⟨1 / 2, 65536⟩] 9).printed ++ new ∧
        s'.totRound / 10 =
          (delaySample [⟨0, 100⟩, ⟨1 / 2, 65536⟩] 9).totRound / 10 + new.length ∧
        ∀ j < block, ∀ hj : j < new.length,
          (delaySample [⟨0, 100⟩, ⟨1 / 2, 65536⟩] 9).ring.nth j <+: new[j].map Line.packet := by
  obtain ⟨h, run⟩ := delaySample_run [⟨0, 100⟩, ⟨1 / 2, 65536⟩] 9 (by decide +kernel)
  obtain ⟨h', s', run', -⟩ := exists_guardedRun_of_exec (fun s : Sim ℚ => s.totRound) (b := 19)
    (show (execGuarded (RingSim.tick ringSample) (Sim.Unlost ringSample)
      (delaySample [⟨0, 100⟩, ⟨1 / 2, 65536⟩] 9) (List.replicate 10 ())).map _ = _ by decide +kernel)
  exact ⟨s', by decide +kernel, printed_in_turn ringSample memSample run run'⟩

/-- `s` has read all input, and `t` has not looked at `inque` since. -/
structure Rests (s t : Sim τ) : Prop where
  input : t.input = []
  inque : t.inque = s.inque
  placed : t.placed = s.placed
  discarded : t.discarded = s.discarded

theorem Rests.tick (h : Rests s t) {c o : Unit} (heq : RingSim.tick A t c = .ok (o, s')) :
    t.Unlost A c ∧ Rests s s' ∧ s'.totRound = t.totRound + 1 := by
  have hnone : arriving A (t.totRound + 1) t.input = [] := by rw [h.input]; rfl
  have hround := (tick_input heq).2
  obtain ⟨u, hu, rfl⟩ := tick_ok heq
  rw [if_pos hnone] at hu
  obtain ⟨hinput, hinque, -, hplaced, hdiscarded⟩ := finish_frame u
  rw [hu] at hinput hinque hplaced hdiscarded
  refine ⟨fun hne => absurd hnone hne, ⟨?_, ?_, ?_, ?_⟩, hround⟩
  · rw [hu, hinput]
    change coming A _ t.input = []
    rw [h.input]
    rfl
  · rw [hu, hinque]
    change t.inque ++ arriving A _ t.input = _
    rw [hnone, List.append_nil, h.inque]
  · rw [hu, hplaced]
    exact h.placed
  · rw [hu, hdiscarded]
    change t.discarded ++ skipped A _ t.input = _
    rw [h.input, ← h.discarded]
    exact List.append_nil _

theorem tick_rests (hinput : s.input = []) (c : Unit) : ∃ s', RingSim.tick A s c = .ok ((), s') := by
  refine ⟨(s.begin A).finish, ?_⟩
  have hnone : arriving A (s.totRound + 1) s.input = [] := by rw [hinput]; rfl
  have hbegin := testInput_outer A s.input { s with totRound := s.totRound + 1 }
  rw [if_pos hnone] at hbegin
  unfold RingSim.tick testFunc
  rw [hbegin]
  rfl

theorem run_rests (hinput : s.input = []) (n : ℕ) :
    ∃ s', GuardedRun (RingSim.tick A) (Sim.Unlost A) s (List.replicate n ((), ())) s' ∧
      Rests s s' ∧ s'.totRound = s.totRound + n := by
  induction n with
  | zero => exact ⟨s, .nil, ⟨hinput, rfl, rfl, rfl⟩, rfl⟩
  | succ n ih =>
    obtain ⟨t, run, hrests, hlen⟩ := ih
    obtain ⟨s', hs'⟩ := tick_rests (A := A) hrests.input ()
    obtain ⟨hloss, hrests', hround⟩ := hrests.tick hs'
    refine ⟨s', ?_, hrests', by rw [hround, hlen, Nat.add_assoc]⟩
    rw [List.replicate_succ']
    exact .snoc run hloss hs'

/-- In a run that overwrites no packet, all that was placed is printed one round of the ring
later. -/
theorem placed_then_printed (A : RingNum τ) (mem : ℕ → ℕ → Packet τ) {h h' : List (Unit × Unit)}
    (run : GuardedRun (RingSim.tick A) (Sim.Unlost A) (Sim.new mem input) h s)
    (run' : GuardedRun (RingSim.tick A) (Sim.Unlost A) s h' s')
    (hround : s.totRound + 10 * block ≤ s'.totRound) : s.placed <+: s'.printedPackets := by
  obtain ⟨q, hturn⟩ := turns_of_run run run'
  exact q.printed_of_round hturn hround

theorem placed_then_printed_sample :
    ∃ s' : Sim ℚ,
      (delaySample [⟨0, 100⟩, ⟨1 / 2, 65536⟩] 9).placed = [⟨0, 100⟩, ⟨1 / 2, 65536⟩] ∧
        (delaySample [⟨0, 100⟩, ⟨1 / 2, 65536⟩] 9).placed <+: s'.printedPackets := by
  obtain ⟨h, run⟩ := delaySample_run [⟨0, 100⟩, ⟨1 / 2, 65536⟩] 9 (by decide +kernel)
  obtain ⟨s', run', -, hround⟩ := run_rests (A := ringSample)
    (s := delaySample [⟨0, 100⟩, ⟨1 / 2, 65536⟩] 9) (by decide +kernel) (10 * block)
  exact ⟨s', by decide +kernel, placed_then_printed ringSample memSample run run' hround.ge⟩

/-- Where no packet was overwritten until the input was read to its end: from then on nothing
leaves `inque`, and one round of the ring later each packet of the input was printed, was thrown
away or stays in `inque`. -/
theorem left_in_inque (A : RingNum τ) (mem : ℕ → ℕ → Packet τ) {h h' : List (Unit × Unit)}
    (run : GuardedRun (RingSim.tick A) (Sim.Unlost A) (Sim.new mem input) h s)
    (hinput : s.input = []) (run' : Run (RingSim.tick A) s h' s') :
    s'.inque = s.inque ∧ s'.placed = s.placed ∧ s'.discarded = s.discarded ∧
      (10 * block ≤ h'.length → s'.ring.stored = [] ∧
        (s'.printedPackets ++ s'.discarded ++ s'.inque).Perm input) := by
  obtain ⟨hrests, hlen, hrun⟩ := run'.invariant
    (I := fun h' t => Rests s t ∧ t.totRound = s.totRound + h'.length ∧
      GuardedRun (RingSim.tick A) (Sim.Unlost A) s h' t)
    ⟨⟨hinput, rfl, rfl, rfl⟩, rfl, .nil⟩ fun h' t c o t' ht _ heq => by
      obtain ⟨hrests, hlen, hrun⟩ := ht
      obtain ⟨hloss, hrests', hround⟩ := hrests.tick heq
      refine ⟨hrests', ?_, hrun.snoc hloss heq⟩
      rw [hround, hlen, List.length_append, List.length_singleton, Nat.add_assoc]
  refine ⟨hrests.inque, hrests.placed, hrests.discarded, fun hround => ?_⟩
  obtain ⟨q, hturn⟩ := turns_of_run run hrun
  have hprinted := q.printed_of_round hturn (by omega)
  -- nothing was placed since, so that nothing is left in the ring
  have hstored : s'.ring.stored = [] := by
    have horder := hturn.order
    rw [hrests.placed] at horder
    have hle := hprinted.length_le
    rw [← horder, List.length_append] at hle
    exact List.length_eq_zero_iff.mp (by omega)
  refine ⟨hstored, ?_⟩
  have a : Accounted A input s' := (run.append hrun).keeps (accounted_new mem input)
    fun _ _ _ _ a _ heq => a.tick heq
  obtain ⟨taken, htaken, hperm, -⟩ := a.taken
  have horder := hturn.order
  rw [hstored, List.append_nil] at horder
  rw [hrests.input, List.append_nil] at htaken
  rw [horder, htaken]
  exact hperm

theorem left_in_inque_sample :
    ∃ s' : Sim ℚ, (delaySample [⟨0, 200000⟩, ⟨0, 100⟩] 1).inque = [⟨0, 100⟩] ∧
      s'.inque = (delaySample [⟨0, 200000⟩, ⟨0, 100⟩] 1).inque ∧
      (s'.printedPackets ++ s'.discarded ++ s'.inque).Perm [⟨0, 200000⟩, ⟨0, 100⟩] := by
  obtain ⟨h, run⟩ := delaySample_run [⟨0, 200000⟩, ⟨0, 100⟩] 1 (by decide +kernel)
  obtain ⟨s', run', -⟩ := run_rests (A := ringSample)
    (s := delaySample [⟨0, 200000⟩, ⟨0, 100⟩] 1) (by decide +kernel) (10 * block)
  have hrun : Run (RingSim.tick ringSample) (delaySample [⟨0, 200000⟩, ⟨0, 100⟩] 1) _ s' :=
    run'.mono fun _ _ _ => trivial
  obtain ⟨hinque, -, -, hend⟩ :=
    left_in_inque ringSample memSample run (by decide +kernel) hrun
  exact ⟨s', by decide +kernel, hinque, (hend (by rw [List.length_replicate])).2⟩

end Ticks

end MeasurementLimiter.RingSim
