import MeasurementLimiter.TsfSpec

namespace MeasurementLimiter

open Runs

variable {K : Kernel} {skb : Skb} {ret : NetXmit} {q₀ q q' : Tsf} {h : TsfHistory}

def Event.bypassedSkb : Event → Option Skb
  | .bypassed _ skb => some skb
  | _ => none

def Tsf.bypassed (q : Tsf) : List Skb := q.trace.filterMap Event.bypassedSkb

def bypassAccepted : TsfCall × TsfAnswer → Option Skb
  | (.enqueue skb, .verdict .success) => if skb.daddr ≠ deip then some skb else none
  | _ => none

/-- `test_qdisc` holds the packets `l`, and each call of `tsf_dequeue` returns its head. -/
def Departs (K : Kernel) : List Skb → Tsf → Prop
  | [], q => q.testQdisc.skbs = []
  | skb :: l, q => q.testQdisc.skbs = skb :: l ∧
      ∀ spins, ∃ q', tsfDequeue K spins q = .ok (some skb, q') ∧ Departs K l q'

/-- What is known of the bypass queue after a run: where the inner queue could not look at
it, it takes no packet, and it is a queue. -/
structure Parking (h : TsfHistory) (q : Tsf) : Prop where
  ops : q.qdisc.ops = .bfifo ∨
    (q.testQdisc.skbs = [] ∧ ∀ l skb, q.testQdisc.verdict l skb ≠ .success)
  order : h.filterMap bypassAccepted = q.bypassed ++ q.testQdisc.skbs

/-- The parked packets leave, in the order in which they were accepted. -/
structure ParkedLeave (K : Kernel) (h : TsfHistory) (q : Tsf) : Prop where
  leaving : Departs K q.testQdisc.skbs q
  order : h.filterMap bypassAccepted = q.bypassed ++ q.testQdisc.skbs

def Tsf.SameClass (q : Tsf) : TsfCall → Prop
  | .enqueue skb => skb.daddr ≠ deip → skb.saddr = deip →
      q.testQdisc.verdict q.testQdisc.skbs skb ≠ .success
  | _ => True

instance (q : Tsf) (c : TsfCall) : Decidable (q.SameClass c) := by
  unfold Tsf.SameClass
  cases c <;> infer_instance

def Tsf.released (K : Kernel) (q : Tsf) (skb : Skb) : Tsf :=
  { q.tick with
    testQdisc := { q.testQdisc with skbs := q.testQdisc.skbs.tail }
    trace := q.trace ++ [.bypassed (q.now K) skb] }

theorem tsfDequeue_bypass (h : bypassHead q = some skb) (spins : ℕ) :
    tsfDequeue K spins q = .ok (some skb, q.released K skb) := by
  unfold tsfDequeue
  rw [h]
  rfl

theorem bypassHead_of_cons {l : List Skb} (hops : q.qdisc.ops = .bfifo)
    (hskbs : q.testQdisc.skbs = skb :: l) (hs : skb.saddr ≠ deip) : bypassHead q = some skb := by
  have hpeek : q.qdisc.ops.peek q.testQdisc = some skb := by
    rw [hops, QdiscOps.peek, hskbs, List.head?_cons]
  rw [bypassHead, hpeek]
  exact Option.filter_some_pos (by simpa using hs)

theorem bypassHead_blocked {l : List Skb} (hskbs : q.testQdisc.skbs = skb :: l)
    (hs : skb.saddr = deip) : bypassHead q = none := by
  cases hhead : bypassHead q with
  | none => rfl
  | some p =>
    have hcons := bypassHead_cons hhead
    rw [hskbs] at hcons
    obtain rfl := (List.cons.inj hcons).1
    have hclass := (Option.filter_eq_some_iff.mp hhead).2
    exact absurd hs (of_decide_eq_true hclass)

theorem Departs.skbs {l : List Skb} (hl : Departs K l q) : q.testQdisc.skbs = l := by
  cases l with
  | nil => exact hl
  | cons skb l => exact hl.1

theorem DequeueCase.testQdisc {o : Option Skb} (hcase : DequeueCase K q o q')
    (hhead : bypassHead q = none) : q'.testQdisc = q.testQdisc := by
  cases hcase with
  | bypass hsome => exact absurd (hsome.symm.trans hhead) (Option.some_ne_none _)
  | sent => rfl
  | nothing => rfl
  | finished => rfl

theorem leaving_iff {l : List Skb} (hops : q.qdisc.ops = .bfifo) (hskbs : q.testQdisc.skbs = l) :
    Departs K l q ↔ ∀ skb ∈ l, skb.saddr ≠ deip := by
  induction l generalizing q with
  | nil =>
    simp only [Departs, hskbs, List.not_mem_nil, false_imp_iff, implies_true]
  | cons skb l ih =>
    rw [List.forall_mem_cons]
    have htail : (q.released K skb).testQdisc.skbs = l := congrArg List.tail hskbs
    have hrest := ih (q := q.released K skb) hops htail
    constructor
    · rintro ⟨-, hleave⟩
      obtain ⟨q', hq', hl⟩ := hleave 0
      have hs : skb.saddr ≠ deip := by
        intro hs
        have hsame := (tsfDequeue_cases hq').testQdisc (bypassHead_blocked hskbs hs)
        have hshort := hl.skbs
        rw [hsame, hskbs] at hshort
        exact List.cons_ne_self skb l hshort
      rw [tsfDequeue_bypass (bypassHead_of_cons hops hskbs hs)] at hq'
      obtain ⟨-, rfl⟩ := Prod.mk.inj (Except.ok.inj hq')
      exact ⟨hs, hrest.mp hl⟩
    · rintro ⟨hs, hl⟩
      have hhead := bypassHead_of_cons hops hskbs hs
      exact ⟨hskbs, fun spins => ⟨_, tsfDequeue_bypass hhead spins, hrest.mpr hl⟩⟩

structure SameBypass (q q' : Tsf) : Prop where
  ops : q'.qdisc.ops = q.qdisc.ops
  testQdisc : q'.testQdisc = q.testQdisc
  bypassed : q'.bypassed = q.bypassed

theorem bypassed_append (q : Tsf) {l : List Event} (h : l.filterMap Event.bypassedSkb = []) :
    (q.trace ++ l).filterMap Event.bypassedSkb = q.bypassed := by
  rw [List.filterMap_append, h, List.append_nil]
  rfl

theorem bypassed_afterRing (q : Tsf) (now : ℤ) (skb : Skb) (ret : NetXmit) (k : Ring) :
    (q.afterRing now skb ret k).bypassed = q.bypassed := by
  unfold Tsf.afterRing Tsf.bypassed
  dsimp only
  split_ifs
  · exact bypassed_append q rfl
  · rfl

theorem SameBypass.ring (s : SameBypass q q') (now : ℤ) (skb : Skb) (ret : NetXmit) (k : Ring) :
    SameBypass q (q'.afterRing now skb ret k) :=
  ⟨s.ops, s.testQdisc, (bypassed_afterRing q' now skb ret k).trans s.bypassed⟩

theorem SameBypass.park (s : SameBypass q q') (skb : Skb) : SameBypass q (tsfPark skb q').2 := by
  rcases tsfPark_cases skb q' with ⟨-, hp⟩ | ⟨ret, -, -, hp⟩
  · rw [hp]
    exact ⟨s.ops, s.testQdisc, s.bypassed⟩
  · rw [hp]
    exact ⟨s.ops, s.testQdisc, s.bypassed⟩

theorem plain_bypass (heq : tsfPlain K skb q = .ok (ret, q')) : SameBypass q q' := by
  refine tsfPlain_rule (I := fun _ q₁ => SameBypass q q₁) ⟨rfl, rfl, bypassed_append q rfl⟩
    ?_ ?_ ?_ ?_ heq
  · intro toks q₁ p l k s _ _ _
    have s' := s.ring (q.now K) p .success k
    exact ⟨s'.ops, s'.testQdisc, s'.bypassed⟩
  · intro toks q₁ p l ret k s _ _ _ _
    have s' := s.ring (q.now K) p ret k
    exact ⟨s'.ops, s'.testQdisc, s'.bypassed⟩
  · intro toks q₁ ret k s _ _ _
    have s' := s.ring (q.now K) skb ret k
    exact ⟨s'.ops, s'.testQdisc, s'.bypassed⟩
  · intro toks q₁ expiry s _ _
    have s' := s.park skb
    exact ⟨s'.ops, s'.testQdisc, s'.bypassed⟩

theorem segmentOne_bypass {seg : Skb} {q₁ : Tsf} (s : SameBypass q q₁)
    (heq : tsfSegmentOne K seg q₁ = .ok (ret, q')) : SameBypass q q' := by
  rcases tsfSegmentOne_cases heq with ⟨-, k, -, rfl⟩ | ⟨-, -, rfl⟩
  · have s' := s.ring (q₁.now K) (markSegment seg) ret k
    exact ⟨s'.ops, s'.testQdisc, s'.bypassed⟩
  · have hticked : SameBypass q q₁.tick := ⟨s.ops, s.testQdisc, s.bypassed⟩
    have s' := hticked.park (markSegment seg)
    exact ⟨s'.ops, s'.testQdisc, s'.bypassed⟩

theorem segment_bypass (heq : tsfSegment K skb q = .ok (ret, q')) : SameBypass q q' := by
  rcases tsfSegment_cases heq with ⟨-, rfl⟩ | ⟨-, nb, q₁, hloop, rfl⟩
  · exact ⟨rfl, rfl, rfl⟩
  · have hbegin : SameBypass q (q.beginSegments (K.skbGsoSegment skb)) := by
      refine ⟨rfl, rfl, bypassed_append q ?_⟩
      rw [List.filterMap_map]
      exact List.filterMap_eq_nil_iff.mpr fun _ _ => rfl
    have s := tsfSegmentLoop_rule (I := fun _ _ q₁ => SameBypass q q₁)
      (fun _ _ _ _ _ _ s hone => segmentOne_bypass s hone) hbegin hloop
    obtain ⟨p, b, hq⟩ := endSegments_eq q₁ skb (K.skbGsoSegment skb) nb
    rw [hq]
    exact ⟨s.ops, s.testQdisc, s.bypassed⟩

theorem Parking.leaving_iff (p : Parking h q) :
    Departs K q.testQdisc.skbs q ↔ ∀ skb ∈ q.testQdisc.skbs, skb.saddr ≠ deip := by
  rcases p.ops with hops | ⟨hempty, -⟩
  · exact MeasurementLimiter.leaving_iff hops rfl
  · rw [hempty]
    simp [Departs, hempty]

theorem Parking.same (p : Parking h q) (s : SameBypass q q') {e : TsfCall × TsfAnswer}
    (he : bypassAccepted e = none) : Parking (h ++ [e]) q' := by
  refine ⟨?_, ?_⟩
  · rw [s.ops, s.testQdisc]
    exact p.ops
  · rw [s.bypassed, s.testQdisc, List.filterMap_append, List.filterMap_cons_none he,
      List.filterMap_nil, List.append_nil]
    exact p.order

theorem tsfInit_parking {opt : Option TsfEnv} (hinit : tsfInit K opt = (0, q)) :
    Parking [] q := by
  have hfresh := tsfInit_fresh hinit
  have horder : ([] : List Skb) = q.bypassed ++ q.testQdisc.skbs := by
    rw [Tsf.bypassed, hfresh.trace, hfresh.testQdisc]
    rfl
  cases opt with
  | none => exact absurd (Prod.mk.inj hinit).1 (by decide)
  | some env =>
    obtain ⟨parms, time, rate64, testQdisc, q₁, qdisc, q₂, -, h₁, h₂, h₃⟩ := tsfChange_ok hinit
    obtain ⟨k, -, -, hq⟩ := tsfMakeRing_ok h₃
    refine ⟨?_, horder⟩
    by_cases hpos : 0 < (tsfSet K parms time rate64 (tsfZero K)).tlen
    · obtain ⟨-, rfl⟩ := tsfNewChild_pos hpos h₁
      obtain ⟨rfl, rfl⟩ := tsfNewChild_pos (by exact hpos) h₂
      rw [hq]
      exact .inl rfl
    · rw [tsfNewChild_zero hpos] at h₁
      obtain ⟨rfl, rfl⟩ := Prod.mk.inj (Except.ok.inj h₁)
      have hkept := (tsfNewChild_zero (by exact hpos) _ _).symm.trans h₂
      obtain ⟨rfl, rfl⟩ := Prod.mk.inj (Except.ok.inj hkept)
      rw [hq]
      exact .inr ⟨rfl, K.noop_refuses⟩

theorem tsfBypass_verdict (skb : Skb) (q : Tsf) :
    (tsfBypass skb q).1 = q.testQdisc.verdict q.testQdisc.skbs skb := by
  unfold tsfBypass qdiscEnqueue
  cases q.testQdisc.verdict q.testQdisc.skbs skb <;> rfl

theorem Parking.bypass (p : Parking h q) (hd : skb.daddr ≠ deip) :
    Parking (h ++ [(.enqueue skb, .verdict (tsfBypass skb q).1)]) (tsfBypass skb q).2 := by
  rcases tsfBypass_cases skb q with hb | ⟨ret, hne, hb⟩
  · have hv := tsfBypass_verdict skb q
    rw [hb] at hv ⊢
    have hops : q.qdisc.ops = .bfifo := p.ops.resolve_right fun hnone => hnone.2 _ _ hv.symm
    refine ⟨.inl hops, ?_⟩
    have haccepted : bypassAccepted (.enqueue skb, .verdict .success) = some skb := if_pos hd
    rw [List.filterMap_append, List.filterMap_cons_some haccepted, p.order, List.filterMap_nil,
      List.append_assoc]
    exact congrArg (· ++ (q.testQdisc.skbs ++ [skb])) (bypassed_append q rfl).symm
  · rw [hb]
    apply p.same
    · exact ⟨rfl, rfl, bypassed_append q rfl⟩
    · cases ret with
      | success => exact absurd rfl hne
      | drop => rfl
      | cn => rfl

theorem bypass_sameClass (hd : skb.daddr ≠ deip) (hall : ∀ p ∈ q.testQdisc.skbs, p.saddr ≠ deip) :
    (∀ p ∈ (tsfBypass skb q).2.testQdisc.skbs, p.saddr ≠ deip) ↔ q.SameClass (.enqueue skb) := by
  have hclass : q.SameClass (.enqueue skb) ↔ (skb.saddr = deip → (tsfBypass skb q).1 ≠ .success) := by
    rw [tsfBypass_verdict]
    exact ⟨fun hc => hc hd, fun hc _ => hc⟩
  rw [hclass]
  rcases tsfBypass_cases skb q with hb | ⟨ret, hne, hb⟩
  · rw [hb]
    constructor
    · intro hend hs
      exact absurd hs (hend skb (List.mem_append_right _ List.mem_cons_self))
    · intro hs p hp
      rcases List.mem_append.mp hp with hp | hp
      · exact hall p hp
      · rw [List.mem_singleton.mp hp]
        exact fun h => hs h rfl
  · rw [hb]
    exact ⟨fun _ _ => hne, fun _ => hall⟩

theorem Parking.dequeue (p : Parking h q) {o : Option Skb} (hcase : DequeueCase K q o q')
    (spins : ℕ) :
    Parking (h ++ [(.dequeue spins, .packet o)]) q' ∧
      (q'.testQdisc.skbs = q.testQdisc.skbs ∨ q'.testQdisc.skbs = q.testQdisc.skbs.tail) := by
  have hother : SameBypass q q' → Parking (h ++ [(.dequeue spins, .packet o)]) q' ∧
      (q'.testQdisc.skbs = q.testQdisc.skbs ∨ q'.testQdisc.skbs = q.testQdisc.skbs.tail) :=
    fun s => ⟨p.same s rfl, .inl (congrArg Qdisc.skbs s.testQdisc)⟩
  cases hcase with
  | @bypass skb hhead =>
    have hcons := bypassHead_cons hhead
    have hops : q.qdisc.ops = .bfifo := p.ops.resolve_right fun hnone => by
      rw [hnone.1] at hcons
      cases hcons
    refine ⟨⟨.inl hops, ?_⟩, .inr rfl⟩
    change _ = (q.trace ++ [Event.bypassed (q.now K) skb]).filterMap Event.bypassedSkb ++
      q.testQdisc.skbs.tail
    rw [List.filterMap_append, List.filterMap_append, p.order,
      List.append_assoc _ _ q.testQdisc.skbs.tail]
    change _ = q.bypassed ++ skb :: q.testQdisc.skbs.tail
    rw [← hcons]
    exact List.append_nil _
  | sent => exact hother ⟨rfl, rfl, bypassed_append q rfl⟩
  | nothing => exact hother ⟨rfl, rfl, rfl⟩
  | finished => exact hother ⟨rfl, rfl, bypassed_append q rfl⟩

theorem Parking.step (p : Parking h q) {c : TsfCall} {a : TsfAnswer}
    (heq : tsfStep K q c = .ok (a, q')) :
    Parking (h ++ [(c, a)]) q' ∧
      ((∀ skb ∈ q.testQdisc.skbs, skb.saddr ≠ deip) →
        ((∀ skb ∈ q'.testQdisc.skbs, skb.saddr ≠ deip) ↔ q.SameClass c)) := by
  cases tsfStep_cases heq with
  | @bypass skb hd => exact ⟨p.bypass hd, bypass_sameClass hd⟩
  | @segments c skb ret q' hc hseg =>
    have s := segment_bypass hseg
    rw [s.testQdisc]
    rcases hc with rfl | ⟨rfl, hd, -⟩
    · exact ⟨p.same s rfl, fun hall => ⟨fun _ => trivial, fun _ => hall⟩⟩
    · refine ⟨p.same s ?_, fun hall => ⟨fun _ hne => absurd hd hne, fun _ => hall⟩⟩
      cases ret with
      | success => exact if_neg (not_not.mpr hd)
      | drop => rfl
      | cn => rfl
  | @plain skb ret q' hd _ hplain =>
    have s := plain_bypass hplain
    rw [s.testQdisc]
    refine ⟨p.same s ?_, fun hall => ⟨fun _ hne => absurd hd hne, fun _ => hall⟩⟩
    cases ret with
    | success => exact if_neg (not_not.mpr hd)
    | drop => rfl
    | cn => rfl
  | @dequeue spins o q' hcase =>
    obtain ⟨hp, hskbs⟩ := p.dequeue hcase spins
    refine ⟨hp, fun hall => ⟨fun _ => trivial, fun _ skb hskb => ?_⟩⟩
    rcases hskbs with hsame | htail
    · exact hall skb (hsame ▸ hskb)
    · exact hall skb (List.mem_of_mem_tail (htail ▸ hskb))

/-- Through a run of a configured scheduler every packet in `test_qdisc` leaves by its turn
of `tsf_dequeue`, in the order in which `tsf_enqueue` accepted them, exactly when no packet
from `DEIP` that goes elsewhere is accepted. -/
theorem bypass_leaves_iff {opt : Option TsfEnv} (hinit : tsfInit K opt = (0, q₀))
    (run : Run (tsfStep K) q₀ h q) :
    (∀ l s, l <+: h → Run (tsfStep K) q₀ l s → ParkedLeave K l s) ↔
      GuardedRun (tsfStep K) Tsf.SameClass q₀ h q := by
  have hparking := tsfInit_parking hinit
  refine run.always_iff (I := ParkedLeave K) (J := Parking) (D := fun _ => True)
    (fun _ _ d => d) ?_ hparking ?_ trivial
  · refine ⟨?_, hparking.order⟩
    rw [(tsfInit_fresh hinit).testQdisc]
    exact (tsfInit_fresh hinit).testQdisc
  · intro l s c a s' p _ _ heq
    obtain ⟨p', hclass⟩ := p.step heq
    refine ⟨p', fun hl => ?_⟩
    rw [← hclass (p.leaving_iff.mp hl.leaving), ← p'.leaving_iff]
    exact ⟨fun h => h.leaving, fun h => ⟨h, p'.order⟩⟩

theorem bypass_leaves_iff_sample :
    ∃ h q, q.testQdisc.skbs = [bypassSample 2 ⟨10, 0, 0, 1⟩] ∧
      Run (tsfStep (kernelSample 3 [])) (tsfSample (kernelSample 3 []) 1000000000) h q ∧
      ParkedLeave (kernelSample 3 []) h q := by
  obtain ⟨h, q, run, hq⟩ := exists_guardedRun_of_exec (fun q : Tsf => q.testQdisc.skbs)
    (b := [bypassSample 2 ⟨10, 0, 0, 1⟩])
    (show (execGuarded (tsfStep (kernelSample 3 [])) Tsf.SameClass
      (tsfSample (kernelSample 3 []) 1000000000)
      [.enqueue (bypassSample 1 ⟨10, 0, 0, 1⟩), .enqueue (bypassSample 2 ⟨10, 0, 0, 1⟩),
        .dequeue 0]).map _ = _ by decide +kernel)
  have hrun := run.mono fun _ _ _ => trivial
  exact ⟨h, q, hq, hrun,
    (bypass_leaves_iff (tsfSample_init _ _) hrun).mpr run h q (List.prefix_refl h) hrun⟩

/-- A packet from `DEIP` waits in `test_qdisc`, and behind it one that has nothing to do with
`DEIP`: `tsf_dequeue` returns neither. -/
theorem source_deip_blocks :
    tsfInit (kernelSample 3 []) (some (envSample 1000000000)) =
        (0, tsfSample (kernelSample 3 []) 1000000000) ∧
      ∃ h q, Run (tsfStep (kernelSample 3 [])) (tsfSample (kernelSample 3 []) 1000000000) h q ∧
        h.map Prod.fst = [.enqueue (bypassSample 1 deip), .enqueue (bypassSample 2 ⟨10, 0, 0, 1⟩)] ∧
        q.testQdisc.skbs = [bypassSample 1 deip, bypassSample 2 ⟨10, 0, 0, 1⟩] ∧
        (tsfDequeue (kernelSample 3 []) 0 q).toOption.map Prod.fst = some none ∧
        ∀ spins o q', tsfDequeue (kernelSample 3 []) spins q = .ok (o, q') →
          q'.testQdisc.skbs = q.testQdisc.skbs := by
  refine ⟨tsfSample_init _ _, ?_⟩
  obtain ⟨⟨h, q⟩, hexec, hq⟩ := exists_ok
    (fun r => (r.1.map Prod.fst, r.2.testQdisc.skbs,
      (tsfDequeue (kernelSample 3 []) 0 r.2).toOption.map Prod.fst))
    (b := ([.enqueue (bypassSample 1 deip), .enqueue (bypassSample 2 ⟨10, 0, 0, 1⟩)],
      [bypassSample 1 deip, bypassSample 2 ⟨10, 0, 0, 1⟩], some none))
    (show (exec (tsfStep (kernelSample 3 [])) (tsfSample (kernelSample 3 []) 1000000000)
      [.enqueue (bypassSample 1 deip), .enqueue (bypassSample 2 ⟨10, 0, 0, 1⟩)]).toOption.map _ = _
      by decide +kernel)
  obtain ⟨hcalls, hrest⟩ := Prod.mk.inj hq
  obtain ⟨hskbs, hnone⟩ := Prod.mk.inj hrest
  refine ⟨h, q, run_of_exec hexec, hcalls, hskbs, hnone, fun spins o q' heq => ?_⟩
  rw [(tsfDequeue_cases heq).testQdisc (bypassHead_blocked hskbs rfl)]

end MeasurementLimiter
