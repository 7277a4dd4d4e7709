import MeasurementLimiter.TsfRoutes
import MeasurementLimiter.TsfSafety

namespace MeasurementLimiter

open TokenBucket

variable {K : Kernel} {now toks toks₀ : ℤ} {skb p : Skb} {ret : NetXmit} {k : Ring} {q₀ q q' s s' : Tsf}

/-- The states of the loop over the inner queue that starts in `q₀` with the balance `toks₀`. -/
inductive Promoting (now toks₀ : ℤ) (q₀ : Tsf) : ℤ → Tsf → Prop
  | start : Promoting now toks₀ q₀ toks₀ q₀
  | next {toks : ℤ} {q : Tsf} {p : Skb} {l : List Skb} {k : Ring} : Promoting now toks₀ q₀ toks q →
      q.qdisc.skbs = p :: l → 0 ≤ toks - q.rate.l2tNs p.pktLen →
      kfifoEnqueue (some p) q.kfifo = .ok (.success, k) →
      Promoting now toks₀ q₀ (toks - q.rate.l2tNs p.pktLen)
        (q.promoted now (toks - q.rate.l2tNs p.pktLen) p l k)

/-- `tsf_enqueue` of `skb` on `q` offers a packet to the ring: the packet, the answer, and the
states before the packet was handled and after it. -/
inductive Attempt (K : Kernel) (skb : Skb) (q : Tsf) : Skb → NetXmit → Tsf → Tsf → Prop
  | promoted {toks : ℤ} {s : Tsf} {p : Skb} {l : List Skb} {ret : NetXmit} {k : Ring} :
      skb.daddr = deip → ¬Segments K skb q →
      Promoting (q.now K) (enqueueToks q (q.now K)) (q.begin skb) toks s →
      s.qdisc.skbs = p :: l → 0 ≤ toks - s.rate.l2tNs p.pktLen →
      kfifoEnqueue (some p) s.kfifo = .ok (ret, k) →
      Attempt K skb q p ret s (if ret = .success
        then s.promoted (q.now K) (toks - s.rate.l2tNs p.pktLen) p l k
        else s.lost (q.now K) p l ret k)
  | new {toks toks2 : ℤ} {preSkb : Option Skb} {ret : NetXmit} {s s' : Tsf} :
      skb.daddr = deip → ¬Segments K skb q →
      tsfPromoteAll (q.now K) (enqueueToks q (q.now K)) (q.begin skb) =
        .ok (.finished toks toks2 preSkb s) →
      0 ≤ toks - s.rate.l2tNs skb.pktLen →
      tsfNew (q.now K) skb toks toks2 preSkb s = .ok (ret, s') → Attempt K skb q skb ret s s'
  | segment {pre segs : List Skb} {seg : Skb} {nb : ℕ} {ret : NetXmit} {s s' : Tsf} :
      skb.daddr = deip → Segments K skb q → K.skbGsoSegment skb = pre ++ seg :: segs →
      tsfSegmentLoop K pre 0 (q.beginSegments (K.skbGsoSegment skb)) = .ok (nb, s) →
      0 ≤ segmentToks s (s.now K) seg → tsfSegmentOne K seg s = .ok (ret, s') →
      Attempt K skb q (markSegment seg) ret s s'

def ChargesStored (K : Kernel) (skb : Skb) (q : Tsf) : Prop :=
  ∀ p ret s s', Attempt K skb q p ret s s' → ret ≠ .success →
    s'.tokens = s.tokens ∧ s'.tC = s.tC

/-- Of the segments that the tokens pay for the ring accepts each, or its charge is nil. -/
def SegmentsPaid (K : Kernel) : List Skb → Ring → Tsf → Prop
  | [], _, _ => True
  | seg :: segs, k, q =>
    let toks := segmentToks q (q.now K) seg
    if 0 ≤ toks then
      match kfifoEnqueue (some (markSegment seg)) k with
      | .ok (.success, k') => SegmentsPaid K segs k' (q.tick.charged (q.now K) toks)
      | _ => (toks = q.tokens ∧ q.now K = q.tC) ∧
          SegmentsPaid K segs k (q.tick.charged (q.now K) toks)
    else SegmentsPaid K segs k q.tick

/-- The bucket when it is the turn of the new packet: if no parked packet was promoted, as it
was before the call. -/
def Tsf.bucketForNew (K : Kernel) (q : Tsf) : Bucket ℤ :=
  let toks := enqueueToks q (q.now K)
  if covered q.rate toks q.qdisc.skbs = [] then q.bucket
  else ⟨(uncovered q.rate toks q.qdisc.skbs).1, q.now K⟩

/-- The ring accepts what the call offers after the parked packets, or the charge is nil. -/
def Tsf.OffersPaid (K : Kernel) (skb : Skb) (q : Tsf) : Prop :=
  skb.daddr = deip →
    if Segments K skb q then SegmentsPaid K (K.skbGsoSegment skb) q.kfifo q
    else
      let toks := enqueueToks q (q.now K)
      let left := (uncovered q.rate toks q.qdisc.skbs).1 - q.rate.l2tNs skb.pktLen
      RingAccepts (covered q.rate toks q.qdisc.skbs) q.kfifo → 0 ≤ left →
        RingAccepts (covered q.rate toks q.qdisc.skbs ++ [skb]) q.kfifo ∨
          q.bucketForNew K = ⟨left, q.now K⟩

theorem segmentsPaid_congr (h : q.SameMeter q') (segs : List Skb) (k : Ring) :
    SegmentsPaid K segs k q ↔ SegmentsPaid K segs k q' := by
  induction segs generalizing q q' k with
  | nil => rfl
  | cons seg segs ih =>
    have hnow : q.now K = q'.now K := by rw [Tsf.now, Tsf.now, h.readings]
    have htoks : ∀ now, segmentToks q now seg = segmentToks q' now seg := by
      intro now
      rw [segmentToks, segmentToks, h.tokens, h.tC, h.buffer, h.rate]
    have hread : q.tick.readings = q'.tick.readings := congrArg (· + 1) h.readings
    have hcharged : ∀ now toks k, SegmentsPaid K segs k (q.tick.charged now toks) ↔
        SegmentsPaid K segs k (q'.tick.charged now toks) := by
      intro now toks k
      apply ih
      exact ⟨hread, rfl, rfl, h.buffer, h.rate⟩
    have htick : SegmentsPaid K segs k q.tick ↔ SegmentsPaid K segs k q'.tick := by
      apply ih
      exact ⟨hread, h.tokens, h.tC, h.buffer, h.rate⟩
    simp only [SegmentsPaid, hnow, htoks, h.tokens, h.tC, hcharged, htick]

/-- What `ChargesStored` says of the segments `segs`, from the state `q` of their loop on. -/
def SegmentsFair (K : Kernel) (segs : List Skb) (nb : ℕ) (q : Tsf) : Prop :=
  ∀ pre seg rest nb' ret s s', segs = pre ++ seg :: rest →
    tsfSegmentLoop K pre nb q = .ok (nb', s) → 0 ≤ segmentToks s (s.now K) seg →
    tsfSegmentOne K seg s = .ok (ret, s') → ret ≠ .success → s'.tokens = s.tokens ∧ s'.tC = s.tC

theorem segmentsFair_cons {seg : Skb} {segs : List Skb} {nb : ℕ}
    (heq : tsfSegmentOne K seg q = .ok (ret, q')) :
    SegmentsFair K (seg :: segs) nb q ↔
      (0 ≤ segmentToks q (q.now K) seg → ret ≠ .success → q'.tokens = q.tokens ∧ q'.tC = q.tC) ∧
        SegmentsFair K segs (if ret = .success then nb + 1 else nb) q' := by
  have hloop : ∀ pre, tsfSegmentLoop K (seg :: pre) nb q =
      tsfSegmentLoop K pre (if ret = .success then nb + 1 else nb) q' := by
    intro pre
    rw [tsfSegmentLoop, heq]
  constructor
  · refine fun h => ⟨fun hpos hne => h [] seg segs nb ret q q' rfl rfl hpos heq hne, ?_⟩
    intro pre seg' rest nb' ret' s s' hsegs hpre hpos hone hne
    exact h (seg :: pre) seg' rest nb' ret' s s' (congrArg (seg :: ·) hsegs)
      ((hloop pre).trans hpre) hpos hone hne
  · rintro ⟨hfirst, hrest⟩ pre seg' rest nb' ret' s s' hsegs hpre hpos hone hne
    cases pre with
    | nil =>
      obtain ⟨rfl, rfl⟩ := List.cons.inj hsegs
      obtain ⟨rfl, rfl⟩ := Prod.mk.inj (Except.ok.inj hpre)
      rw [heq] at hone
      obtain ⟨rfl, rfl⟩ := Prod.mk.inj (Except.ok.inj hone)
      exact hfirst hpos hne
    | cons seg'' pre =>
      rw [List.cons_append] at hsegs
      obtain ⟨rfl, htail⟩ := List.cons.inj hsegs
      exact hrest pre seg' rest nb' ret' s s' htail ((hloop pre).symm.trans hpre) hpos hone hne

theorem segmentsFair_iff (h : Circular q.kfifo) (segs : List Skb) (nb : ℕ) :
    SegmentsFair K segs nb q ↔ SegmentsPaid K segs q.kfifo q := by
  -- on the segments, each of which is offered to the ring that the ones before it left
  induction segs generalizing q nb with
  | nil =>
    refine iff_of_true (fun pre seg rest nb' ret s s' hsegs => ?_) trivial
    simp at hsegs
  | cons seg segs ih =>
    by_cases hpos : 0 ≤ segmentToks q (q.now K) seg
    · have hone := tsfSegmentOne_ring (K := K) hpos
      rw [SegmentsPaid, if_pos hpos]
      rcases kfifoEnqueue_cases h (markSegment seg) with ⟨hd, -⟩ | ⟨t, cost, l, hs⟩
      · rw [hd] at hone ⊢
        rw [segmentsFair_cons hone]
        refine and_congr ⟨fun hfair => hfair hpos (by decide), fun hnil _ _ => hnil⟩ ?_
        refine (ih ?_ _).trans (segmentsPaid_congr ?_ segs q.kfifo)
        · exact h
        · exact ⟨rfl, rfl, rfl, rfl, rfl⟩
      · rw [hs] at hone ⊢
        rw [segmentsFair_cons hone]
        refine (and_iff_right fun _ hne => absurd rfl hne).trans ?_
        refine (ih ?_ _).trans (segmentsPaid_congr ?_ segs _)
        · exact h.store l.ahead
        · exact ⟨rfl, rfl, rfl, rfl, rfl⟩
    · have hone := tsfSegmentOne_park (K := K) hpos
      rw [SegmentsPaid, if_neg hpos, segmentsFair_cons hone]
      refine (and_iff_right fun hpos' => absurd hpos' hpos).trans ?_
      refine (ih ?_ _).trans (segmentsPaid_congr ?_ segs q.kfifo)
      · exact h
      · exact ⟨rfl, rfl, rfl, rfl, rfl⟩

/-- In the loop over the inner queue that starts with the balance `toks₀`: before the first
promotion the bucket is as it was, and after it the loop has set it. -/
structure Drawing (toks₀ : ℤ) (q₀ : Tsf) (now toks : ℤ) (q : Tsf) : Prop
    extends Covering toks₀ q₀ toks q where
  circular : Circular q.kfifo
  bucket : (q.bucket = q₀.bucket ∧ toks = toks₀ ∧ q.qdisc.skbs = q₀.qdisc.skbs) ∨
    (q.bucket = ⟨toks, now⟩ ∧ covered q₀.rate toks₀ q₀.qdisc.skbs ≠ [])

theorem Drawing.promote {l : List Skb} (d : Drawing toks₀ q₀ now toks q)
    (hl : q.qdisc.skbs = p :: l) (hpos : 0 ≤ toks - q.rate.l2tNs p.pktLen)
    (hk : kfifoEnqueue (some p) q.kfifo = .ok (.success, k)) :
    Drawing toks₀ q₀ now (toks - q.rate.l2tNs p.pktLen)
      (q.promoted now (toks - q.rate.l2tNs p.pktLen) p l k) := by
  refine ⟨d.toCovering.promote hl hpos hk, d.circular.of_enqueue hk, .inr ⟨rfl, ?_⟩⟩
  rcases d.bucket with ⟨-, rfl, hskbs⟩ | ⟨-, hne⟩
  · rw [← hskbs, ← d.rate, hl, covered, if_pos hpos]
    exact List.cons_ne_nil _ _
  · exact hne

theorem Drawing.bucket_eq (d : Drawing (enqueueToks q₀ (q₀.now K)) q₀ (q₀.now K) toks q)
    (hend : peekToks q toks < 0 ∨ q.qdisc.skbs = []) :
    toks = (uncovered q₀.rate (enqueueToks q₀ (q₀.now K)) q₀.qdisc.skbs).1 ∧
      q.bucket = q₀.bucketForNew K := by
  obtain ⟨hcovered, huncovered⟩ := covered_stop hend
  have hleft : toks = (uncovered q₀.rate (enqueueToks q₀ (q₀.now K)) q₀.qdisc.skbs).1 := by
    rw [← d.rest, huncovered]
  refine ⟨hleft, ?_⟩
  rcases d.bucket with ⟨hbucket, htoks, hskbs⟩ | ⟨hbucket, hne⟩
  · rw [d.rate, hskbs, htoks] at hcovered
    rw [hbucket, Tsf.bucketForNew, if_pos hcovered]
  · rw [hbucket, Tsf.bucketForNew, if_neg hne, hleft]

theorem drawing_begin (h : Circular q.kfifo) : Drawing (enqueueToks q (q.now K)) q (q.now K)
    (enqueueToks q (q.now K)) (q.begin skb) :=
  ⟨⟨rfl, rfl, rfl, fun _ => Iff.rfl⟩, h, .inl ⟨rfl, rfl, rfl⟩⟩

theorem promoteAll_finished {toks2 : ℤ} {preSkb : Option Skb} (h : Circular q.kfifo)
    (hall : tsfPromoteAll (q.now K) (enqueueToks q (q.now K)) (q.begin skb) =
      .ok (.finished toks toks2 preSkb s)) :
    Drawing (enqueueToks q (q.now K)) q (q.now K) toks s ∧
      (peekToks s toks < 0 ∨ s.qdisc.skbs = []) := by
  rcases tsfPromoteAll_rule (fun _ _ _ _ _ d hl hpos hk => Drawing.promote d hl hpos hk)
    (drawing_begin h) hall with ⟨_, _, d, hend, hr⟩ | ⟨_, _, _, _, _, _, -, -, -, -, -, hr⟩
  · cases hr
    exact ⟨d, hend⟩
  · cases hr

theorem promoteAll_returned (h : Circular q.kfifo)
    (hall : tsfPromoteAll (q.now K) (enqueueToks q (q.now K)) (q.begin skb) =
      .ok (.returned ret s)) :
    ¬RingAccepts (covered q.rate (enqueueToks q (q.now K)) q.qdisc.skbs) q.kfifo := by
  rcases tsfPromoteAll_rule (fun _ _ _ _ _ d hl hpos hk => Drawing.promote d hl hpos hk)
    (drawing_begin h) hall with ⟨_, _, -, -, hr⟩ | ⟨_, _, _, _, _, _, d, hl, hpos, hne, hk, -⟩
  · cases hr
  · intro haccepts
    have := (d.accepts []).mpr (by rwa [List.append_nil])
    rw [hl, covered, if_pos hpos] at this
    exact not_ringAccepts_cons hk hne _ this

theorem Drawing.fair_iff {toks2 : ℤ} {preSkb : Option Skb}
    (d : Drawing (enqueueToks q (q.now K)) q (q.now K) toks s)
    (hend : peekToks s toks < 0 ∨ s.qdisc.skbs = []) (hpos : 0 ≤ toks - q.rate.l2tNs skb.pktLen)
    (hone : tsfNew (q.now K) skb toks toks2 preSkb s = .ok (ret, s')) :
    (ret ≠ .success → s'.tokens = s.tokens ∧ s'.tC = s.tC) ↔
      RingAccepts (covered q.rate (enqueueToks q (q.now K)) q.qdisc.skbs ++ [skb]) q.kfifo ∨
        q.bucketForNew K = ⟨toks - q.rate.l2tNs skb.pktLen, q.now K⟩ := by
  have haccepts := d.accepts [skb]
  rw [(covered_stop hend).1, List.nil_append] at haccepts
  rw [← d.rate] at hpos
  rw [← haccepts, ← (d.bucket_eq hend).2, ← d.rate]
  rcases tsfNew_cases hone with ⟨-, k, hk, rfl⟩ | ⟨hneg, -, -⟩
  · by_cases hret : ret = .success
    · subst hret
      exact iff_of_true (fun hne => absurd rfl hne) (.inl ⟨k, hk, trivial⟩)
    · refine (imp_iff_right hret).trans ⟨fun hsame => .inr ?_, fun hor => ?_⟩
      · rw [Tsf.bucket, ← hsame.1, ← hsame.2]
        rfl
      · have hsame := hor.resolve_left (not_ringAccepts_cons hk hret [])
        rw [Tsf.bucket, Bucket.mk.injEq] at hsame
        exact ⟨hsame.1.symm, hsame.2.symm⟩
  · exact absurd hpos (not_le.mpr hneg)

theorem offersPaid_segments (hd : skb.daddr = deip) (hs : Segments K skb q) :
    q.OffersPaid K skb ↔ SegmentsPaid K (K.skbGsoSegment skb) q.kfifo q := by
  rw [Tsf.OffersPaid, if_pos hs, imp_iff_right hd]

theorem offersPaid_plain (hd : skb.daddr = deip) (hs : ¬Segments K skb q) {left : ℤ}
    (hleft : left = (uncovered q.rate (enqueueToks q (q.now K)) q.qdisc.skbs).1) :
    q.OffersPaid K skb ↔
      (RingAccepts (covered q.rate (enqueueToks q (q.now K)) q.qdisc.skbs) q.kfifo →
        0 ≤ left - q.rate.l2tNs skb.pktLen →
        RingAccepts (covered q.rate (enqueueToks q (q.now K)) q.qdisc.skbs ++ [skb]) q.kfifo ∨
          q.bucketForNew K = ⟨left - q.rate.l2tNs skb.pktLen, q.now K⟩) := by
  rw [Tsf.OffersPaid, if_neg hs, imp_iff_right hd, hleft]

theorem chargesStored_segments_iff (h : Circular q.kfifo) (hd : skb.daddr = deip)
    (hs : Segments K skb q) : ChargesStored K skb q ↔ q.OffersPaid K skb := by
  have hbegin : Circular (q.beginSegments (K.skbGsoSegment skb)).kfifo := h
  have hsame : (q.beginSegments (K.skbGsoSegment skb)).SameMeter q := ⟨rfl, rfl, rfl, rfl, rfl⟩
  rw [offersPaid_segments hd hs, ← segmentsPaid_congr hsame]
  refine Iff.trans ?_ (segmentsFair_iff (K := K) hbegin (K.skbGsoSegment skb) 0)
  constructor
  · intro hcharges pre seg rest nb ret s s' hsegs hloop hpos hone hne
    exact hcharges _ _ _ _ (.segment hd hs hsegs hloop hpos hone) hne
  · rintro hfair p ret s s' (⟨-, hs', -⟩ | ⟨-, hs', -⟩ | ⟨-, -, hsegs, hloop, hpos, hone⟩) hne
    · exact absurd hs hs'
    · exact absurd hs hs'
    · exact hfair _ _ _ _ _ _ _ hsegs hloop hpos hone hne

theorem chargesStored_plain_iff (h : Circular q.kfifo) (hd : skb.daddr = deip)
    (hs : ¬Segments K skb q) (heq : tsfPlain K skb q = .ok (ret, q')) :
    ChargesStored K skb q ↔ q.OffersPaid K skb := by
  constructor
  · intro hcharges
    rw [offersPaid_plain hd hs rfl]
    intro haccepts hleft
    rw [tsfPlain_eq] at heq
    split at heq
    · cases heq
    · rename_i hall
      exact absurd haccepts (promoteAll_returned h hall)
    · rename_i hall
      obtain ⟨d, hend⟩ := promoteAll_finished h hall
      rw [← (d.bucket_eq hend).1] at hleft ⊢
      rw [← d.fair_iff hend hleft heq]
      rw [← d.rate] at hleft
      exact hcharges _ _ _ _ (.new hd hs hall hleft heq)
  · rintro hpaid p ret s s' (⟨-, -, -, hl, hpos, hk⟩ | ⟨-, -, hall, hpos, hone⟩ | ⟨-, hs', -⟩) hne
    · rw [if_neg hne]
      exact ⟨rfl, rfl⟩
    · obtain ⟨d, hend⟩ := promoteAll_finished h hall
      rw [d.rate] at hpos
      refine (d.fair_iff hend hpos hone).mpr ?_ hne
      rw [offersPaid_plain hd hs (d.bucket_eq hend).1] at hpaid
      refine hpaid ?_ hpos
      have haccepts := d.accepts []
      rw [(covered_stop hend).1, List.append_nil, List.append_nil] at haccepts
      exact haccepts.mp trivial
    · exact absurd hs' hs

/-- A call of `tsf_enqueue` that returns charges no refused packet exactly when the ring
accepts each new packet and each segment that it is offered, or their charge is nil. -/
theorem charges_stored_iff (h : Circular q.kfifo) (heq : tsfEnqueue K skb q = .ok (ret, q')) :
    ChargesStored K skb q ↔ q.OffersPaid K skb := by
  by_cases hd : skb.daddr = deip
  · by_cases hs : Segments K skb q
    · exact chargesStored_segments_iff h hd hs
    · rw [tsfEnqueue_plain hd hs] at heq
      exact chargesStored_plain_iff h hd hs heq
  · refine iff_of_true ?_ fun hd' => absurd hd' hd
    rintro p ret s s' (⟨hd', -⟩ | ⟨hd', -⟩ | ⟨hd', -⟩)
    · exact absurd hd' hd
    · exact absurd hd' hd
    · exact absurd hd' hd

theorem charges_stored_iff_sample :
    let K := pairSample 5 1400 500
    let q := tsfSampleAfter K 1000000000 [.enqueue (skbSample 9 2800), .dequeue 0]
    q.qdisc.skbs = [skbSample 1 1400] ∧ ChargesStored K (skbSample 3 100) q ∧
      ∃ ret q', tsfEnqueue K (skbSample 3 100) q = .ok (ret, q') ∧ q'.tokens = 400 := by
  intro K q
  have run : Runs.Run (tsfStep K) (tsfSample K 1000000000)
      [(.enqueue (skbSample 9 2800), .verdict .success), (.dequeue 0, .packet (skbSample 2 500))] q :=
    tsfSampleAfter_run (by decide +kernel)
  have w : Working K q := (tsfInit_fresh (tsfSample_init K 1000000000)).run run
  obtain ⟨⟨ret, q'⟩, heq, htokens⟩ := Runs.exists_ok (fun r : NetXmit × Tsf => r.2.tokens) (b := 400)
    (show (tsfEnqueue K (skbSample 3 100) q).toOption.map _ = _ by decide +kernel)
  refine ⟨by decide +kernel, (charges_stored_iff w.ring.toCircular heq).mpr ?_, ret, q', heq, htokens⟩
  intro _
  rw [if_neg (by decide +kernel)]
  exact fun _ _ => .inl (by decide +kernel)

/-- The balance pays for both segments of 500 ns, and the ring refuses the second one: its
write node still holds the first.  The second is charged as well. -/
theorem refused_segment_charged :
    let K := pairSample 0 500 500
    let q := tsfSample K 1000000000
    tsfInit K (some (envSample 1000000000)) = (0, q) ∧
      (∃ s s', Attempt K (skbSample 9 2800) q (skbSample 2 500) .drop s s' ∧
        s.tokens = 9500 ∧ s'.tokens = 9000) ∧
      ¬ChargesStored K (skbSample 9 2800) q := by
  intro K q
  have hattempt : ∃ s s', Attempt K (skbSample 9 2800) q (skbSample 2 500) .drop s s' ∧
      s.tokens = 9500 ∧ s'.tokens = 9000 := by
    obtain ⟨⟨nb, s⟩, hloop, hs⟩ := Runs.exists_ok
      (fun r : ℕ × Tsf => (r.2.tokens, decide (0 ≤ segmentToks r.2 (r.2.now K) (skbSample 2 500)),
        (tsfSegmentOne K (skbSample 2 500) r.2).toOption.map fun r => (r.1, r.2.tokens)))
      (b := (9500, true, some (.drop, 9000)))
      (show (tsfSegmentLoop K [skbSample 1 500] 0
        (q.beginSegments [skbSample 1 500, skbSample 2 500])).toOption.map _ = _ by decide +kernel)
    obtain ⟨htokens, hrest⟩ := Prod.mk.inj hs
    obtain ⟨hpos, hone⟩ := Prod.mk.inj hrest
    obtain ⟨⟨ret, s'⟩, hone, hs'⟩ := Runs.exists_ok (fun r : NetXmit × Tsf => (r.1, r.2.tokens)) hone
    obtain ⟨rfl, htokens'⟩ := Prod.mk.inj hs'
    have hsegs : K.skbGsoSegment (skbSample 9 2800) = [skbSample 1 500] ++ skbSample 2 500 :: [] := rfl
    refine ⟨s, s', ?_, htokens, htokens'⟩
    exact .segment rfl (by decide +kernel) hsegs hloop (of_decide_eq_true hpos) hone
  refine ⟨tsfSample_init K 1000000000, hattempt, fun hcharges => ?_⟩
  obtain ⟨s, s', hs, htokens, htokens'⟩ := hattempt
  have hsame := (hcharges _ _ _ _ hs (by decide)).1
  omega

end MeasurementLimiter
