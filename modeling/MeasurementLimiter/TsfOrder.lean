import MeasurementLimiter.TsfRoutes
import MeasurementLimiter.TsfSafety
import MeasurementLimiter.RingFifo

namespace MeasurementLimiter

open Runs

variable {K : Kernel} {now toks : ℤ} {skb : Skb} {ret : NetXmit} {q₀ q q' : Tsf}

def Event.offeredSkb : Event → Option Skb
  | .offered skb => some skb
  | _ => none

def Event.sentSkb : Event → Option Skb
  | .sent _ skb => some skb
  | _ => none

def Event.returnedSkb : Event → Option Skb
  | .sent _ skb | .bypassed _ skb => some skb
  | _ => none

/-- The packets to `DEIP` that were passed to `tsf_enqueue`, a super-packet as its segments. -/
def offeredToDeip (trace : List Event) : List Skb :=
  (trace.filterMap Event.offeredSkb).filter fun skb => skb.daddr = deip

def returnedToDeip (trace : List Event) : List Skb :=
  (trace.filterMap Event.returnedSkb).filter fun skb => skb.daddr = deip

/-- No segment that the ring accepts finds a packet in the inner queue, which holds `l`. -/
def SegmentsInOrder (verdict : List Skb → Skb → NetXmit) : Ring → List Skb → List Route → Prop
  | _, _, [] => True
  | k, l, .ring seg :: r =>
    match kfifoEnqueue (some seg) k with
    | .ok (.success, k') => l = [] ∧ SegmentsInOrder verdict k' l r
    | _ => SegmentsInOrder verdict k l r
  | k, l, .park seg :: r =>
    SegmentsInOrder verdict k (if verdict l seg = .success then l ++ [seg] else l) r

instance decidableSegmentsInOrder (verdict : List Skb → Skb → NetXmit) :
    (k : Ring) → (l : List Skb) → (r : List Route) → Decidable (SegmentsInOrder verdict k l r)
  | _, _, [] => isTrue trivial
  | k, l, .ring seg :: r =>
    match h : kfifoEnqueue (some seg) k with
    | .ok (.success, k') =>
      have := decidableSegmentsInOrder verdict k' l r
      decidable_of_iff (l = [] ∧ SegmentsInOrder verdict k' l r) (by rw [SegmentsInOrder, h])
    | .ok (.drop, _) =>
      have := decidableSegmentsInOrder verdict k l r
      decidable_of_iff (SegmentsInOrder verdict k l r) (by rw [SegmentsInOrder, h])
    | .ok (.cn, _) =>
      have := decidableSegmentsInOrder verdict k l r
      decidable_of_iff (SegmentsInOrder verdict k l r) (by rw [SegmentsInOrder, h])
    | .error _ =>
      have := decidableSegmentsInOrder verdict k l r
      decidable_of_iff (SegmentsInOrder verdict k l r) (by rw [SegmentsInOrder, h])
  | k, l, .park seg :: r =>
    decidableSegmentsInOrder verdict k (if verdict l seg = .success then l ++ [seg] else l) r

/-- The new packet, if the ring accepts it, leaves no packet behind in the inner queue. -/
def PlainInOrder (K : Kernel) (skb : Skb) (q : Tsf) : Prop :=
  let toks := enqueueToks q (q.now K)
  let (left, rest) := uncovered q.rate toks q.qdisc.skbs
  0 ≤ left - q.rate.l2tNs skb.pktLen →
    RingAccepts (covered q.rate toks q.qdisc.skbs ++ [skb]) q.kfifo → rest = []

def Tsf.InOrder (K : Kernel) (q : Tsf) : TsfCall → Prop
  | .enqueue skb =>
    skb.daddr = deip →
      if Segments K skb q then
        SegmentsInOrder q.qdisc.verdict q.kfifo q.qdisc.skbs (routes K (K.skbGsoSegment skb) q)
      else PlainInOrder K skb q
  | .segment skb =>
    SegmentsInOrder q.qdisc.verdict q.kfifo q.qdisc.skbs (routes K (K.skbGsoSegment skb) q)
  | .dequeue _ => True

instance (K : Kernel) (skb : Skb) (q : Tsf) : Decidable (PlainInOrder K skb q) := by
  unfold PlainInOrder
  infer_instance

instance (K : Kernel) (q : Tsf) : (c : TsfCall) → Decidable (q.InOrder K c)
  | .enqueue skb => inferInstanceAs (Decidable (skb.daddr = deip → ite _ _ _))
  | .segment _ => decidableSegmentsInOrder _ _ _ _
  | .dequeue _ => isTrue trivial

/-- What left the ring, what is in it, what is parked, and what the running call has still to
place are in the order in which they were offered. -/
structure Ordered (pending : List Skb) (q : Tsf) : Prop where
  ring : RingInv q.kfifo
  bypass : ∀ skb ∈ q.testQdisc.skbs, skb.daddr ≠ deip
  agree : returnedToDeip q.trace =
    (q.trace.filterMap Event.sentSkb).filter fun skb => skb.daddr = deip
  order : (q.trace.filterMap Event.sentSkb ++ q.kfifo.stored ++ q.qdisc.skbs ++ pending).Sublist
    (q.trace.filterMap Event.offeredSkb)

variable {pending : List Skb}

theorem Ordered.same (o : Ordered pending q) (hkfifo : q'.kfifo = q.kfifo)
    (hqdisc : q'.qdisc.skbs = q.qdisc.skbs) (htest : q'.testQdisc.skbs = q.testQdisc.skbs)
    (htrace : q'.trace = q.trace) : Ordered pending q' := by
  refine ⟨hkfifo ▸ o.ring, htest ▸ o.bypass, htrace ▸ o.agree, ?_⟩
  rw [hkfifo, hqdisc, htrace]
  exact o.order

theorem Ordered.forget (o : Ordered (skb :: pending) q) : Ordered pending q := by
  refine ⟨o.ring, o.bypass, o.agree, List.Sublist.trans ?_ o.order⟩
  exact (List.sublist_cons_self skb pending).append_left _

theorem Ordered.lose (o : Ordered pending q) {l : List Skb} (hl : q.qdisc.skbs = skb :: l) :
    Ordered pending (q.withQueue l) := by
  refine ⟨o.ring, o.bypass, o.agree, List.Sublist.trans ?_ o.order⟩
  rw [hl]
  exact ((List.sublist_cons_self skb l).append_left _).append_right _

theorem filterMap_afterRing {f : Event → Option Skb} (hf : ∀ now skb, f (.stored now skb) = none)
    (now : ℤ) (skb : Skb) (ret : NetXmit) (k : Ring) (q : Tsf) :
    (q.afterRing now skb ret k).trace.filterMap f = q.trace.filterMap f := by
  unfold Tsf.afterRing
  split_ifs
  · simp [hf]
  · rfl

theorem Ordered.ring_next (o : Ordered (skb :: pending) q) {k : Ring}
    (hk : kfifoEnqueue (some skb) q.kfifo = .ok (ret, k)) (hempty : ret = .success → q.qdisc.skbs = [])
    (now : ℤ) : Ordered pending (q.afterRing now skb ret k) := by
  have hring := o.ring.of_step (ringStep_enqueue hk)
  rcases o.ring.enqueue_stored hk with ⟨rfl, hstored⟩ | ⟨rfl, rfl⟩
  · refine ⟨hring, o.bypass, ?_, ?_⟩
    · rw [returnedToDeip, filterMap_afterRing fun _ _ => rfl, filterMap_afterRing fun _ _ => rfl]
      exact o.agree
    · rw [filterMap_afterRing fun _ _ => rfl, filterMap_afterRing fun _ _ => rfl]
      have horder := o.order
      rw [hempty rfl] at horder
      change (_ ++ k.stored ++ q.qdisc.skbs ++ pending).Sublist _
      rw [hstored, hempty rfl]
      simpa using horder
  · exact o.forget.same rfl rfl rfl rfl

theorem Ordered.promote (o : Ordered pending q) {l : List Skb} {k : Ring}
    (hl : q.qdisc.skbs = skb :: l) (hk : kfifoEnqueue (some skb) q.kfifo = .ok (.success, k))
    (now toks : ℤ) : Ordered pending (q.promoted now toks skb l k) := by
  have hring := o.ring.of_step (ringStep_enqueue hk)
  rcases o.ring.enqueue_stored hk with ⟨-, hstored⟩ | ⟨hret, -⟩
  · have htrace : (q.promoted now toks skb l k).trace = (q.afterRing now skb .success k).trace := rfl
    refine ⟨hring, o.bypass, ?_, ?_⟩
    · rw [returnedToDeip, htrace, filterMap_afterRing fun _ _ => rfl,
        filterMap_afterRing fun _ _ => rfl]
      exact o.agree
    · rw [htrace, filterMap_afterRing fun _ _ => rfl, filterMap_afterRing fun _ _ => rfl]
      have horder := o.order
      rw [hl] at horder
      change (_ ++ k.stored ++ l ++ pending).Sublist _
      rw [hstored]
      simpa using horder
  · cases hret

theorem Ordered.append (o : Ordered (skb :: pending) q) :
    Ordered pending (q.withQueue (q.qdisc.skbs ++ [skb])) := by
  refine ⟨o.ring, o.bypass, o.agree, ?_⟩
  have := o.order
  rwa [show skb :: pending = [skb] ++ pending from rfl, ← List.append_assoc,
    List.append_assoc _ q.qdisc.skbs] at this

theorem Ordered.park (o : Ordered (skb :: pending) q) : Ordered pending (tsfPark skb q).2 := by
  rcases tsfPark_cases skb q with ⟨-, hp⟩ | ⟨ret, -, -, hp⟩
  · rw [hp]
    exact o.append
  · rw [hp]
    exact o.forget.same rfl rfl rfl rfl

theorem Ordered.offer (o : Ordered [] q) (l : List Skb)
    (htrace : q'.trace = q.trace ++ l.map Event.offered) (hkfifo : q'.kfifo = q.kfifo)
    (hqdisc : q'.qdisc.skbs = q.qdisc.skbs) (htest : q'.testQdisc.skbs = q.testQdisc.skbs) :
    Ordered l q' := by
  have hoffered : (l.map Event.offered).filterMap Event.offeredSkb = l := by
    rw [List.filterMap_map]
    exact List.filterMap_some
  have hsent : (l.map Event.offered).filterMap Event.sentSkb = [] := by
    simp [List.filterMap_eq_nil_iff, Event.sentSkb]
  have hreturned : (l.map Event.offered).filterMap Event.returnedSkb = [] := by
    simp [List.filterMap_eq_nil_iff, Event.returnedSkb]
  refine ⟨hkfifo ▸ o.ring, htest ▸ o.bypass, ?_, ?_⟩
  · have := o.agree
    rw [returnedToDeip] at this
    rw [returnedToDeip, htrace, List.filterMap_append, List.filterMap_append, hsent, hreturned,
      List.append_nil, List.append_nil, this]
  · have := o.order
    rw [List.append_nil] at this
    rw [htrace, List.filterMap_append, List.filterMap_append, hsent, hoffered, List.append_nil,
      hkfifo, hqdisc]
    exact this.append_right l

/-- In the loop over the segments: the rest of them is still in order. -/
structure Placing (K : Kernel) (segs : List Skb) (q : Tsf) : Prop where
  ordered : Ordered (segs.map markSegment) q
  inOrder : SegmentsInOrder q.qdisc.verdict q.kfifo q.qdisc.skbs (routes K segs q)

theorem Placing.step {seg : Skb} {segs : List Skb} (p : Placing K (seg :: segs) q)
    (heq : tsfSegmentOne K seg q = .ok (ret, q')) : Placing K segs q' := by
  have hin := p.inOrder
  have hord := p.ordered
  rw [List.map_cons] at hord
  -- a segment that goes to the ring needs the inner queue to be empty, unless it is refused
  cases tsfSegmentOne_taken p.ordered.ring.toCircular heq with
  | stored hk hq hroute =>
    subst hq
    rw [hroute, SegmentsInOrder, hk] at hin
    refine ⟨?_, hin.2⟩
    exact (hord.ring_next (q := q) hk (fun _ => hin.1) (q.now K)).same rfl rfl rfl rfl
  | refused hne hk hq hroute =>
    subst hq
    refine ⟨?_, ?_⟩
    · exact (hord.ring_next (q := q) hk (fun h => absurd h hne) (q.now K)).same rfl rfl rfl rfl
    · rw [hroute, SegmentsInOrder, hk] at hin
      cases ret with
      | success => exact absurd rfl hne
      | drop => exact hin
      | cn => exact hin
  | parked hv hq hroute =>
    subst hq
    rw [hroute, SegmentsInOrder, if_pos hv] at hin
    exact ⟨hord.append.same rfl rfl rfl rfl, hin⟩
  | freed hne hv hq hroute =>
    subst hq
    rw [hroute, SegmentsInOrder, if_neg hv] at hin
    exact ⟨hord.forget.same rfl rfl rfl rfl, hin⟩

theorem Ordered.segment (o : Ordered [] q)
    (hin : SegmentsInOrder q.qdisc.verdict q.kfifo q.qdisc.skbs (routes K (K.skbGsoSegment skb) q))
    (heq : tsfSegment K skb q = .ok (ret, q')) : Ordered [] q' := by
  rcases tsfSegment_cases heq with ⟨-, rfl⟩ | ⟨-, nb, q₁, hloop, rfl⟩
  · exact o.same rfl rfl rfl rfl
  · have hbegin : Placing K (K.skbGsoSegment skb) (q.beginSegments (K.skbGsoSegment skb)) := by
      refine ⟨o.offer ((K.skbGsoSegment skb).map markSegment) ?_ rfl rfl rfl, ?_⟩
      · rw [List.map_map]
        rfl
      · rw [routes_beginSegments]
        exact hin
    have p := tsfSegmentLoop_rule (I := fun segs _ q₁ => Placing K segs q₁)
      (fun _ _ _ _ _ _ p hone => p.step hone) hbegin hloop
    obtain ⟨pl, b, hq⟩ := endSegments_eq q₁ skb (K.skbGsoSegment skb) nb
    rw [hq]
    exact p.ordered.same rfl rfl rfl rfl

theorem Ordered.plain (o : Ordered [] q) (hin : PlainInOrder K skb q)
    (heq : tsfPlain K skb q = .ok (ret, q')) : Ordered [] q' := by
  refine tsfPlain_routes (I := fun _ q₁ => Ordered [skb] q₁) (J := Ordered [])
    rfl rfl ?_ ?_ ?_ ?_ ?_ heq
  · exact o.offer [skb] rfl rfl rfl rfl
  · intro toks q₁ p l k o₁ hl _ hk
    exact o₁.promote hl hk _ _
  · intro toks q₁ p l ret k o₁ _ hl hne hk
    have o₂ : Ordered [] (q₁.withQueue l) := (o₁.lose hl).forget
    rcases o₁.ring.enqueue_stored hk with ⟨hret, -⟩ | ⟨rfl, rfl⟩
    · exact absurd hret hne
    · exact o₂.same rfl rfl rfl rfl
  · intro q₁ ret k o₁ _ hrest hpos haccepts hk
    refine (o₁.ring_next hk (fun hret => ?_) (q.now K)).same rfl rfl rfl rfl
    rw [hrest]
    exact hin hpos (haccepts.mp hret)
  · intro q₁ expiry o₁ _ _ _ _
    exact (Ordered.park o₁).same rfl rfl rfl rfl

theorem Ordered.bypassed (o : Ordered [] q) (hd : skb.daddr ≠ deip) :
    Ordered [] (tsfBypass skb q).2 := by
  have o' : Ordered [skb] { q with trace := q.trace ++ [.offered skb] } :=
    o.offer [skb] rfl rfl rfl rfl
  rcases tsfBypass_cases skb q with hb | ⟨ret, -, hb⟩
  · rw [hb]
    refine ⟨o'.ring, ?_, o'.agree, o'.forget.order⟩
    intro p hp
    rcases List.mem_append.mp hp with hp | hp
    · exact o.bypass p hp
    · rw [List.mem_singleton.mp hp]
      exact hd
  · rw [hb]
    exact o'.forget.same rfl rfl rfl rfl

theorem Ordered.dequeue (o : Ordered [] q) {p : Option Skb} (hcase : DequeueCase K q p q') :
    Ordered [] q' := by
  have hagree := o.agree
  have horder := o.order
  rw [returnedToDeip] at hagree
  rw [List.append_nil] at horder
  -- only the ring returns packets for the device, and its head is the oldest
  cases hcase with
  | @bypass skb hhead =>
    have hd := o.bypass skb (bypassHead_mem hhead)
    refine ⟨o.ring, fun p hp => o.bypass p (List.mem_of_mem_tail hp), ?_, ?_⟩
    · simp only [returnedToDeip, List.filterMap_append, List.filter_append, hagree]
      simp [Event.returnedSkb, Event.sentSkb, hd]
    · simp only [List.filterMap_append, List.append_nil]
      simpa [List.filterMap_cons, Tsf.tick, Event.sentSkb, Event.offeredSkb] using horder
  | @sent skb k _ hk =>
    refine ⟨o.ring.of_step (ringStep_dequeue hk), o.bypass, ?_, ?_⟩
    · simp only [returnedToDeip, List.filterMap_append, List.filter_append, hagree]
      rfl
    · rw [(o.ring.dequeue_some hk).1] at horder
      simpa [List.filterMap_cons, Tsf.tick, Event.sentSkb, Event.offeredSkb] using horder
  | @nothing k _ hk =>
    refine ⟨o.ring.of_step (ringStep_dequeue hk), o.bypass, o.agree, ?_⟩
    change (_ ++ k.stored ++ _ ++ _).Sublist _
    rw [(o.ring.dequeue_none hk).1]
    exact o.order
  | @finished k w n _ hk howes =>
    have hk' : RingInv k := o.ring.of_step (ringStep_dequeue hk)
    have hstored' := hk'.stored_pay howes
    have hstored := (o.ring.dequeue_none hk).1
    refine ⟨hk'.pay howes, o.bypass, ?_, ?_⟩
    · simp only [returnedToDeip, List.filterMap_append, List.filter_append, hagree]
      rfl
    · simp only [List.filterMap_append, hstored', hstored, List.append_nil]
      simpa [List.filterMap_cons, Tsf.tick, Event.sentSkb, Event.offeredSkb] using horder

theorem Ordered.step (o : Ordered [] q) {c : TsfCall} {a : TsfAnswer} (hin : q.InOrder K c)
    (heq : tsfStep K q c = .ok (a, q')) : Ordered [] q' := by
  cases tsfStep_cases heq with
  | bypass hd => exact o.bypassed hd
  | segments hcall hseg =>
    rcases hcall with rfl | ⟨rfl, hd, hs⟩
    · exact o.segment hin hseg
    · have hin := hin hd
      rw [if_pos hs] at hin
      exact o.segment hin hseg
  | plain hd hs hplain =>
    have hin := hin hd
    rw [if_neg hs] at hin
    exact o.plain hin hplain
  | dequeue hcase => exact o.dequeue hcase

/-- In every run whose calls let nothing overtake a parked packet, `tsf_dequeue` returns the
packets to `DEIP` in the order in which they were passed to `tsf_enqueue`. -/
theorem returned_in_order {opt : Option TsfEnv} (hinit : tsfInit K opt = (0, q₀))
    {h : TsfHistory} (run : GuardedRun (tsfStep K) (Tsf.InOrder K) q₀ h q) :
    (returnedToDeip q.trace).Sublist (offeredToDeip q.trace) := by
  have hfresh := tsfInit_fresh hinit
  have o : Ordered [] q := by
    refine run.keeps (I := Ordered []) ⟨hfresh.ring.inv, ?_, ?_, ?_⟩
      fun q c a q' o hin heq => o.step hin heq
    · rw [hfresh.testQdisc]
      simp
    · rw [hfresh.trace]
      rfl
    · rw [hfresh.trace, hfresh.ring.stored, hfresh.qdisc]
      simp
  have horder := o.order
  rw [o.agree, offeredToDeip]
  apply List.Sublist.filter
  refine List.Sublist.trans ?_ horder
  simp only [List.append_assoc]
  exact List.sublist_append_left _ _

theorem returned_in_order_sample :
    ∃ q : Tsf, returnedToDeip q.trace = [skbSample 1 500] ∧
      offeredToDeip q.trace = [skbSample 1 500, skbSample 2 1400] ∧
      (returnedToDeip q.trace).Sublist (offeredToDeip q.trace) := by
  obtain ⟨h, q, run, hq⟩ := exists_guardedRun_of_exec
    (fun q : Tsf => (returnedToDeip q.trace, offeredToDeip q.trace))
    (b := ([skbSample 1 500], [skbSample 1 500, skbSample 2 1400]))
    (show (execGuarded (tsfStep (pairSample 3 500 1400)) (Tsf.InOrder (pairSample 3 500 1400))
      (tsfSample (pairSample 3 500 1400) 1000000000)
      [.enqueue (skbSample 9 2800), .dequeue 0]).map _ = _ by decide +kernel)
  obtain ⟨hreturned, hoffered⟩ := Prod.mk.inj hq
  exact ⟨q, hreturned, hoffered, returned_in_order (tsfSample_init _ _) run⟩

/-- The second segment goes to the ring past the first, which is parked, and leaves first. -/
theorem second_segment_first :
    tsfInit (pairSample 3 1400 500) (some (envSample 1000000000)) =
        (0, tsfSample (pairSample 3 1400 500) 1000000000) ∧
      ∃ h q, Run (tsfStep (pairSample 3 1400 500))
          (tsfSample (pairSample 3 1400 500) 1000000000) h q ∧
        returnedToDeip q.trace = [skbSample 2 500, skbSample 1 1400] ∧
        offeredToDeip q.trace = [skbSample 1 1400, skbSample 2 500, skbSample 4 100] ∧
        ¬(returnedToDeip q.trace).Sublist (offeredToDeip q.trace) := by
  obtain ⟨h, q, run, hq⟩ := exists_run_of_exec
    (fun q : Tsf => (returnedToDeip q.trace, offeredToDeip q.trace))
    (b := ([skbSample 2 500, skbSample 1 1400],
      [skbSample 1 1400, skbSample 2 500, skbSample 4 100]))
    (show (exec (tsfStep (pairSample 3 1400 500)) (tsfSample (pairSample 3 1400 500) 1000000000)
      [.enqueue (skbSample 9 2800), .dequeue 0, .enqueue (skbSample 4 100),
        .dequeue 0]).toOption.map _ = _ by decide +kernel)
  obtain ⟨hreturned, hoffered⟩ := Prod.mk.inj hq
  refine ⟨tsfSample_init _ _, h, q, run, hreturned, hoffered, ?_⟩
  rw [hreturned, hoffered]
  decide

end MeasurementLimiter
