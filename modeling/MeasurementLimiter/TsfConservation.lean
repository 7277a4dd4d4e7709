import MeasurementLimiter.TsfRoutes

namespace MeasurementLimiter

variable {K : Kernel} {now toks : ℤ} {skb : Skb} {ret : NetXmit} {k k' : Ring} {q₀ q q' : Tsf}

def Kfifo.packets (k : Ring) : Multiset Skb :=
  ∑ i ∈ Finset.range k.totalTime, ((k.node i).kunit : Multiset Skb)

def Tsf.packets (q : Tsf) : Multiset Skb :=
  q.kfifo.packets + (q.qdisc.skbs : Multiset Skb) + (q.testQdisc.skbs : Multiset Skb) +
    (q.toFree : Multiset Skb)

def brought (K : Kernel) (skb : Skb) (q : Tsf) : List Skb :=
  if skb.daddr = deip ∧ Segments K skb q ∧ K.skbGsoSegment skb ≠ [] then
    (K.skbGsoSegment skb).map markSegment
  else [skb]

/-- What it offers to the ring, in this order unless the ring refuses one of the parked
packets. -/
def offeredToRing (K : Kernel) (skb : Skb) (q : Tsf) : List Skb :=
  if skb.daddr ≠ deip then []
  else if Segments K skb q then (routes K (K.skbGsoSegment skb) q).filterMap Route.toRing
  else
    let toks := enqueueToks q (q.now K)
    covered q.rate toks q.qdisc.skbs ++
      if 0 ≤ (uncovered q.rate toks q.qdisc.skbs).1 - q.rate.l2tNs skb.pktLen then [skb] else []

theorem RingAccepts.of_append {l l' : List Skb} (h : RingAccepts (l ++ l') k) : RingAccepts l k := by
  induction l generalizing k with
  | nil => trivial
  | cons skb l ih =>
    obtain ⟨k', hk, hl⟩ := h
    exact ⟨k', hk, ih hl⟩

theorem Circular.packets_nth (h : Circular k) :
    ∑ j ∈ Finset.range k.totalTime, ((k.nth j).kunit : Multiset Skb) = k.packets :=
  h.sum_nth fun n => (n.kunit : Multiset Skb)

theorem Circular.packets_enqueue (h : Circular k)
    (heq : kfifoEnqueue (some skb) k = .ok (ret, k')) :
    k'.packets = k.packets + if ret = .success then {skb} else 0 := by
  rcases kfifoEnqueue_cases h skb with ⟨hd, -⟩ | ⟨t, cost, l, hs⟩
  · rw [hd] at heq
    obtain ⟨rfl, rfl⟩ := Prod.mk.inj (Except.ok.inj heq)
    exact (add_zero _).symm
  · rw [hs] at heq
    obtain ⟨rfl, rfl⟩ := Prod.mk.inj (Except.ok.inj heq)
    have hcirc : Circular (k.store skb t cost) := h.store l.ahead
    have hsum := (wrote_store skb cost l.ahead).sum fun n => (n.kunit : Multiset Skb)
    rw [hcirc.packets_nth, h.packets_nth] at hsum
    have hland : (((k.nth (k.span + t)).land k.links skb (k.rate.l2tNs skb.pktLen) cost).kunit :
        Multiset Skb) = {skb} + (k.nth (k.span + t)).kunit := by
      rw [add_comm ({skb} : Multiset Skb)]
      rfl
    rw [hland, ← add_assoc] at hsum
    exact add_right_cancel hsum

theorem packets_afterRing (now : ℤ) (h : Circular q.kfifo)
    (heq : kfifoEnqueue (some skb) q.kfifo = .ok (ret, k)) :
    (q.afterRing now skb ret k).packets = q.packets + if ret = .success then {skb} else 0 := by
  have hk := h.packets_enqueue heq
  change k.packets + _ + _ + _ = _
  rw [hk, Tsf.packets]
  change _ + (q.qdisc.skbs : Multiset Skb) + (q.testQdisc.skbs : Multiset Skb) +
    (q.toFree : Multiset Skb) = _
  abel

theorem packets_snoc (l : List Skb) : ((l ++ [skb] : List Skb) : Multiset Skb) = l + {skb} := rfl

theorem packets_cons (l : List Skb) : ((skb :: l : List Skb) : Multiset Skb) = {skb} + l := rfl

theorem packets_withQueue {l : List Skb} (hl : q.qdisc.skbs = skb :: l) :
    q.packets = (q.withQueue l).packets + {skb} := by
  rw [Tsf.packets, Tsf.packets, hl, packets_cons]
  change _ = q.kfifo.packets + (l : Multiset Skb) + (q.testQdisc.skbs : Multiset Skb) +
    (q.toFree : Multiset Skb) + {skb}
  abel

theorem packets_park (skb : Skb) (q : Tsf) : (tsfPark skb q).2.packets = q.packets + {skb} := by
  rcases tsfPark_cases skb q with ⟨-, hp⟩ | ⟨ret, -, -, hp⟩
  · rw [hp, Tsf.packets, Tsf.packets]
    change q.kfifo.packets + ((q.qdisc.skbs ++ [skb] : List Skb) : Multiset Skb) +
      (q.testQdisc.skbs : Multiset Skb) + (q.toFree : Multiset Skb) = _
    rw [packets_snoc]
    abel
  · rw [hp, Tsf.packets, Tsf.packets]
    change q.kfifo.packets + (q.qdisc.skbs : Multiset Skb) + (q.testQdisc.skbs : Multiset Skb) +
      ((skb :: q.toFree : List Skb) : Multiset Skb) = _
    rw [packets_cons]
    abel

theorem packets_bypass (skb : Skb) (q : Tsf) : (tsfBypass skb q).2.packets = q.packets + {skb} := by
  rcases tsfBypass_cases skb q with hb | ⟨ret, -, hb⟩
  · rw [hb, Tsf.packets, Tsf.packets]
    change q.kfifo.packets + (q.qdisc.skbs : Multiset Skb) +
      ((q.testQdisc.skbs ++ [skb] : List Skb) : Multiset Skb) + (q.toFree : Multiset Skb) = _
    rw [packets_snoc]
    abel
  · rw [hb, Tsf.packets, Tsf.packets]
    change q.kfifo.packets + (q.qdisc.skbs : Multiset Skb) + (q.testQdisc.skbs : Multiset Skb) +
      ((skb :: q.toFree : List Skb) : Multiset Skb) = _
    rw [packets_cons]
    abel

/-- In the loop over the segments: what is lost so far, and that it is nothing exactly when
the ring accepted all it was offered. -/
structure Conserving (K : Kernel) (q₀ : Tsf) (segs₀ segs : List Skb) (q : Tsf) : Prop where
  circular : Circular q.kfifo
  lost : ∃ lost : Multiset Skb,
    q.packets + (segs.map markSegment : List Skb) + lost =
      q₀.packets + (segs₀.map markSegment : List Skb) ∧
    (lost = 0 ∧ (RingAccepts ((routes K segs q).filterMap Route.toRing) q.kfifo ↔
        RingAccepts ((routes K segs₀ q₀).filterMap Route.toRing) q₀.kfifo) ∨
      lost ≠ 0 ∧ ¬RingAccepts ((routes K segs₀ q₀).filterMap Route.toRing) q₀.kfifo)

theorem Conserving.keep {segs₀ segs : List Skb} {seg : Skb}
    (c : Conserving K q₀ segs₀ (seg :: segs) q) (hcirc : Circular q'.kfifo)
    (hpackets : q'.packets = q.packets + {markSegment seg})
    (hiff : RingAccepts ((routes K (seg :: segs) q).filterMap Route.toRing) q.kfifo ↔
      RingAccepts ((routes K segs q').filterMap Route.toRing) q'.kfifo) :
    Conserving K q₀ segs₀ segs q' := by
  obtain ⟨lost, hlost, hcase⟩ := c.lost
  refine ⟨hcirc, lost, ?_, ?_⟩
  · rw [hpackets, ← hlost, List.map_cons, packets_cons]
    abel
  · rwa [hiff] at hcase

theorem Conserving.lose {segs₀ segs : List Skb} {seg : Skb}
    (c : Conserving K q₀ segs₀ (seg :: segs) q) (hcirc : Circular q'.kfifo)
    (hpackets : q'.packets = q.packets)
    (hno : ¬RingAccepts ((routes K (seg :: segs) q).filterMap Route.toRing) q.kfifo) :
    Conserving K q₀ segs₀ segs q' := by
  obtain ⟨lost, hlost, hcase⟩ := c.lost
  refine ⟨hcirc, {markSegment seg} + lost, ?_, .inr ⟨by simp, ?_⟩⟩
  · rw [hpackets, ← hlost, List.map_cons, packets_cons]
    abel
  · rcases hcase with ⟨-, hiff⟩ | hlate
    · rwa [← hiff]
    · exact hlate.2

theorem Conserving.step {segs₀ segs : List Skb} {seg : Skb}
    (c : Conserving K q₀ segs₀ (seg :: segs) q) (heq : tsfSegmentOne K seg q = .ok (ret, q')) :
    Conserving K q₀ segs₀ segs q' := by
  -- the only packet that can vanish is one that the ring refuses
  rcases tsfSegmentOne_routes heq with ⟨k, hk, rfl, hroute⟩ | ⟨rfl, rfl, hroute⟩
  · have hcirc : Circular k := c.circular.of_enqueue hk
    have hpackets := packets_afterRing (q := q.tick) (q.now K) c.circular hk
    have hring := congrArg (List.filterMap Route.toRing) (hroute segs)
    by_cases hret : ret = .success
    · rw [if_pos hret] at hpackets
      subst hret
      refine c.keep hcirc hpackets ?_
      rw [hring]
      exact ringAccepts_cons hk _
    · rw [if_neg hret, add_zero] at hpackets
      refine c.lose hcirc hpackets ?_
      rw [hring]
      exact not_ringAccepts_cons hk hret _
  · refine c.keep c.circular (packets_park (markSegment seg) q.tick) ?_
    rw [hroute]
    exact Iff.rfl

theorem segment_conserves_iff (h : Circular q.kfifo) (heq : tsfSegment K skb q = .ok (ret, q')) :
    q'.packets = q.packets + (if K.skbGsoSegment skb = [] then [skb]
        else (K.skbGsoSegment skb).map markSegment : List Skb) ↔
      RingAccepts ((routes K (K.skbGsoSegment skb) q).filterMap Route.toRing) q.kfifo := by
  rcases tsfSegment_cases heq with ⟨hnil, rfl⟩ | ⟨hne, nb, q₁, hloop, rfl⟩
  · rw [if_pos hnil, hnil]
    refine iff_of_true ?_ trivial
    change q.kfifo.packets + (q.qdisc.skbs : Multiset Skb) + (q.testQdisc.skbs : Multiset Skb) +
      ((skb :: q.toFree : List Skb) : Multiset Skb) = q.packets + {skb}
    rw [packets_cons, Tsf.packets]
    abel
  · have hbegin : Conserving K q (K.skbGsoSegment skb) (K.skbGsoSegment skb)
        (q.beginSegments (K.skbGsoSegment skb)) := by
      refine ⟨h, 0, add_zero _, .inl ⟨rfl, ?_⟩⟩
      rw [routes_beginSegments]
      rfl
    obtain ⟨-, lost, hlost, hcase⟩ := tsfSegmentLoop_rule
      (I := fun segs _ q₁ => Conserving K q (K.skbGsoSegment skb) segs q₁)
      (fun _ _ _ _ _ _ c hone => c.step hone) hbegin hloop
    obtain ⟨p, b, hq⟩ := endSegments_eq q₁ skb (K.skbGsoSegment skb) nb
    have hpackets : (q₁.endSegments skb (K.skbGsoSegment skb) nb).packets = q₁.packets := by
      rw [hq]
      rfl
    rw [if_neg hne, hpackets, ← hlost, List.map_nil, Multiset.coe_nil, add_zero]
    rcases hcase with ⟨rfl, hiff⟩ | ⟨hpos, hrefused⟩
    · exact iff_of_true (add_zero _).symm (hiff.mp trivial)
    · exact iff_of_false (fun hall => hpos (left_eq_add.mp hall)) hrefused

theorem plain_conserves_iff (h : Circular q.kfifo) {left : ℤ} {offered rest : List Skb}
    (hrest : uncovered q.rate (enqueueToks q (q.now K)) q.qdisc.skbs = (left, rest))
    (hoffered : covered q.rate (enqueueToks q (q.now K)) q.qdisc.skbs = offered)
    (heq : tsfPlain K skb q = .ok (ret, q')) :
    q'.packets = q.packets + {skb} ↔
      RingAccepts (offered ++ if 0 ≤ left - q.rate.l2tNs skb.pktLen then [skb] else []) q.kfifo := by
  refine tsfPlain_routes (I := fun _ q₁ => Circular q₁.kfifo ∧ q₁.packets = q.packets)
    (J := fun q' => q'.packets = q.packets + {skb} ↔
      RingAccepts (offered ++ if 0 ≤ left - q.rate.l2tNs skb.pktLen then [skb] else []) q.kfifo)
    hrest hoffered ⟨h, rfl⟩ ?_ ?_ ?_ ?_ heq
  · rintro toks q₁ p l k ⟨hcirc, hq₁⟩ hl hpos hk
    refine ⟨hcirc.of_enqueue hk, ?_⟩
    have hafter : (q₁.promoted (q.now K) (toks - q₁.rate.l2tNs p.pktLen) p l k).packets =
        (q₁.withQueue l).packets + {p} := packets_afterRing (q := q₁.withQueue l) (q.now K) hcirc hk
    rw [hafter, ← packets_withQueue hl, hq₁]
  · rintro toks q₁ p l ret k ⟨hcirc, hq₁⟩ hrefused hl hne hk
    have hafter : (q₁.lost (q.now K) p l ret k).packets =
        (q₁.withQueue l).packets + if ret = .success then {p} else 0 :=
      packets_afterRing (q := q₁.withQueue l) (q.now K) hcirc hk
    rw [if_neg hne, add_zero] at hafter
    refine iff_of_false (fun hall => ?_) fun hall => hrefused hall.of_append
    rw [hafter, ← hq₁, packets_withQueue hl] at hall
    have hcard := congrArg Multiset.card hall
    simp only [Multiset.card_add, Multiset.card_singleton] at hcard
    omega
  · rintro q₁ ret k ⟨hcirc, hq₁⟩ - - hpos haccepts hk
    have hafter : (((q₁.afterRing (q.now K) skb ret k).charged (q.now K)
        (left - q.rate.l2tNs skb.pktLen)).countDrop ret).packets =
        q₁.packets + if ret = .success then {skb} else 0 := packets_afterRing (q.now K) hcirc hk
    rw [if_pos hpos, ← haccepts, hafter, hq₁]
    by_cases hret : ret = .success
    · simp [hret]
    · simp [hret]
  · rintro q₁ expiry ⟨hcirc, hq₁⟩ hall - - hneg
    rw [if_neg (not_le.mpr hneg), List.append_nil]
    refine iff_of_true ?_ hall
    rw [← hq₁]
    exact packets_park skb q₁

/-- A call of `tsf_enqueue` that returns keeps every packet exactly when the ring accepts all
that the call offers to it. -/
theorem enqueue_conserves_iff (h : Circular q.kfifo) (heq : tsfEnqueue K skb q = .ok (ret, q')) :
    q'.packets = q.packets + (brought K skb q : Multiset Skb) ↔
      RingAccepts (offeredToRing K skb q) q.kfifo := by
  by_cases hd : skb.daddr = deip
  · by_cases hs : Segments K skb q
    · rw [tsfEnqueue_segment hd hs] at heq
      rw [offeredToRing, if_neg (not_not.mpr hd), if_pos hs, ← segment_conserves_iff h heq, brought]
      by_cases hnil : K.skbGsoSegment skb = []
      · simp [hnil]
      · simp [hd, hs, hnil]
    · rw [tsfEnqueue_plain hd hs] at heq
      rw [offeredToRing, if_neg (not_not.mpr hd), if_neg hs, brought, if_neg (by simp [hs])]
      exact plain_conserves_iff h rfl rfl heq
  · rw [tsfEnqueue, if_pos hd] at heq
    obtain ⟨rfl, rfl⟩ := Prod.mk.inj (Except.ok.inj heq)
    rw [offeredToRing, if_pos hd, brought, if_neg (by simp [hd])]
    exact iff_of_true (packets_bypass skb q) trivial

theorem enqueue_conserves_iff_sample :
    ∃ ret q', tsfEnqueue (pairSample 3 1400 500) (skbSample 9 2800)
        (tsfSample (pairSample 3 1400 500) 1000000000) = .ok (ret, q') ∧
      q'.packets = {skbSample 1 1400, skbSample 2 500} ∧
      (q'.packets = (tsfSample (pairSample 3 1400 500) 1000000000).packets +
          (brought (pairSample 3 1400 500) (skbSample 9 2800)
            (tsfSample (pairSample 3 1400 500) 1000000000) : Multiset Skb) ↔
        RingAccepts (offeredToRing (pairSample 3 1400 500) (skbSample 9 2800)
          (tsfSample (pairSample 3 1400 500) 1000000000))
          (tsfSample (pairSample 3 1400 500) 1000000000).kfifo) := by
  have hfresh := tsfInit_fresh (tsfSample_init (pairSample 3 1400 500) 1000000000)
  obtain ⟨⟨ret, q'⟩, heq, hq⟩ := Runs.exists_ok (fun r => r.2.packets)
    (b := {skbSample 1 1400, skbSample 2 500})
    (show (tsfEnqueue (pairSample 3 1400 500) (skbSample 9 2800)
      (tsfSample (pairSample 3 1400 500) 1000000000)).toOption.map _ = _ by decide +kernel)
  exact ⟨ret, q', heq, hq, enqueue_conserves_iff hfresh.ring.toCircular heq⟩

/-- The balance pays for both segments, and the ring refuses the second one: its write node
still holds the first. -/
theorem refused_segment_lost :
    tsfInit (pairSample 0 500 500) (some (envSample 1000000000)) =
        (0, tsfSample (pairSample 0 500 500) 1000000000) ∧
      ∃ ret q', tsfEnqueue (pairSample 0 500 500) (skbSample 9 2800)
          (tsfSample (pairSample 0 500 500) 1000000000) = .ok (ret, q') ∧
        q'.packets = {skbSample 1 500} ∧
        q'.packets ≠ (tsfSample (pairSample 0 500 500) 1000000000).packets +
          (brought (pairSample 0 500 500) (skbSample 9 2800)
            (tsfSample (pairSample 0 500 500) 1000000000) : Multiset Skb) := by
  obtain ⟨⟨ret, q'⟩, heq, hq⟩ := Runs.exists_ok (fun r => r.2.packets) (b := {skbSample 1 500})
    (show (tsfEnqueue (pairSample 0 500 500) (skbSample 9 2800)
      (tsfSample (pairSample 0 500 500) 1000000000)).toOption.map _ = _ by decide +kernel)
  refine ⟨tsfSample_init _ _, ret, q', heq, hq, ?_⟩
  change q'.packets = _ at hq
  rw [hq]
  decide +kernel

end MeasurementLimiter
