import MeasurementLimiter.TsfSpec

namespace MeasurementLimiter

variable {K : Kernel} {now toks : ℤ} {skb : Skb} {ret : NetXmit} {k k' : Ring} {q q' : Tsf}

def RingAccepts : List Skb → Ring → Prop
  | [], _ => True
  | skb :: l, k => ∃ k', kfifoEnqueue (some skb) k = .ok (.success, k') ∧ RingAccepts l k'

theorem ringAccepts_cons (h : kfifoEnqueue (some skb) k = .ok (.success, k')) (l : List Skb) :
    RingAccepts (skb :: l) k ↔ RingAccepts l k' := by
  constructor
  · rintro ⟨k₁, hk, hl⟩
    rw [h] at hk
    obtain ⟨-, rfl⟩ := Prod.mk.inj (Except.ok.inj hk)
    exact hl
  · exact fun hl => ⟨k', h, hl⟩

theorem not_ringAccepts_cons (h : kfifoEnqueue (some skb) k = .ok (ret, k')) (hne : ret ≠ .success)
    (l : List Skb) : ¬RingAccepts (skb :: l) k := by
  rintro ⟨k₁, hk, -⟩
  rw [h] at hk
  exact hne (Prod.mk.inj (Except.ok.inj hk)).1

instance decidableRingAccepts : (l : List Skb) → (k : Ring) → Decidable (RingAccepts l k)
  | [], _ => isTrue trivial
  | skb :: l, k =>
    match h : kfifoEnqueue (some skb) k with
    | .error _ => isFalse fun ⟨_, hk, _⟩ => by rw [h] at hk; cases hk
    | .ok (.success, k') =>
      have := decidableRingAccepts l k'
      decidable_of_iff _ (ringAccepts_cons h l).symm
    | .ok (.drop, _) => isFalse (not_ringAccepts_cons h (by decide) l)
    | .ok (.cn, _) => isFalse (not_ringAccepts_cons h (by decide) l)

def covered (rate : PschedRatecfg) : ℤ → List Skb → List Skb
  | _, [] => []
  | toks, skb :: l =>
    if 0 ≤ toks - rate.l2tNs skb.pktLen then
      skb :: covered rate (toks - rate.l2tNs skb.pktLen) l
    else []

def uncovered (rate : PschedRatecfg) : ℤ → List Skb → ℤ × List Skb
  | toks, [] => (toks, [])
  | toks, skb :: l =>
    if 0 ≤ toks - rate.l2tNs skb.pktLen then uncovered rate (toks - rate.l2tNs skb.pktLen) l
    else (toks, skb :: l)

theorem covered_stop (h : peekToks q toks < 0 ∨ q.qdisc.skbs = []) :
    covered q.rate toks q.qdisc.skbs = [] ∧
      uncovered q.rate toks q.qdisc.skbs = (toks, q.qdisc.skbs) := by
  cases hl : q.qdisc.skbs with
  | nil => exact ⟨rfl, rfl⟩
  | cons skb l =>
    rcases h with hneg | hnil
    · rw [peekToks_cons hl] at hneg
      exact ⟨if_neg (not_le.mpr hneg), if_neg (not_le.mpr hneg)⟩
    · rw [hnil] at hl
      cases hl

/-- The packets that the state still covers at a balance are those that `q₀` covers at
`toks₀` and that did not yet go to the ring. -/
structure Covering (toks₀ : ℤ) (q₀ : Tsf) (toks : ℤ) (q : Tsf) : Prop where
  rate : q.rate = q₀.rate
  verdict : q.qdisc.verdict = q₀.qdisc.verdict
  rest : uncovered q.rate toks q.qdisc.skbs = uncovered q₀.rate toks₀ q₀.qdisc.skbs
  accepts : ∀ l, RingAccepts (covered q.rate toks q.qdisc.skbs ++ l) q.kfifo ↔
    RingAccepts (covered q₀.rate toks₀ q₀.qdisc.skbs ++ l) q₀.kfifo

variable {toks₀ : ℤ} {q₀ : Tsf}

theorem Covering.promote (c : Covering toks₀ q₀ toks q) {l : List Skb} (hl : q.qdisc.skbs = skb :: l)
    (hpos : 0 ≤ toks - q.rate.l2tNs skb.pktLen)
    (hk : kfifoEnqueue (some skb) q.kfifo = .ok (.success, k)) :
    Covering toks₀ q₀ (toks - q.rate.l2tNs skb.pktLen)
      (q.promoted now (toks - q.rate.l2tNs skb.pktLen) skb l k) := by
  have hrest := c.rest
  have haccepts := c.accepts
  rw [hl, uncovered, if_pos hpos] at hrest
  rw [hl, covered, if_pos hpos] at haccepts
  refine ⟨c.rate, c.verdict, hrest, fun l' => ?_⟩
  rw [← haccepts l', List.cons_append, ringAccepts_cons hk]
  rfl

/-- The rule of `tsf_enqueue` for a packet that is not segmented, with what the balance and
the ring have to do with the way it returns. -/
theorem tsfPlain_routed {I : ℤ → Tsf → Prop} {J : NetXmit → Tsf → Prop} {left : ℤ}
    {rest offered : List Skb}
    (hrest : uncovered q.rate (enqueueToks q (q.now K)) q.qdisc.skbs = (left, rest))
    (hoffered : covered q.rate (enqueueToks q (q.now K)) q.qdisc.skbs = offered)
    (h₀ : I (enqueueToks q (q.now K)) (q.begin skb))
    (hpromote : ∀ toks q₁ p l k, I toks q₁ → q₁.qdisc.skbs = p :: l →
      0 ≤ toks - q₁.rate.l2tNs p.pktLen → kfifoEnqueue (some p) q₁.kfifo = .ok (.success, k) →
      I (toks - q₁.rate.l2tNs p.pktLen)
        (q₁.promoted (q.now K) (toks - q₁.rate.l2tNs p.pktLen) p l k))
    (hlost : ∀ toks q₁ p l ret k, I toks q₁ → ¬RingAccepts offered q.kfifo →
      q₁.qdisc.skbs = p :: l → ret ≠ .success →
      kfifoEnqueue (some p) q₁.kfifo = .ok (ret, k) → J ret (q₁.lost (q.now K) p l ret k))
    (hring : ∀ q₁ ret k, I left q₁ → RingAccepts offered q.kfifo → q₁.qdisc.skbs = rest →
      0 ≤ left - q.rate.l2tNs skb.pktLen →
      (ret = .success ↔ RingAccepts (offered ++ [skb]) q.kfifo) →
      kfifoEnqueue (some skb) q₁.kfifo = .ok (ret, k) →
      J ret (((q₁.afterRing (q.now K) skb ret k).charged (q.now K)
        (left - q.rate.l2tNs skb.pktLen)).countDrop ret))
    (hpark : ∀ q₁ expiry, I left q₁ → RingAccepts offered q.kfifo → q₁.qdisc.skbs = rest →
      q₁.qdisc.verdict = q.qdisc.verdict → left - q.rate.l2tNs skb.pktLen < 0 →
      J .success ((tsfPark skb q₁).2.waiting expiry skb.pktLen))
    (heq : tsfPlain K skb q = .ok (ret, q')) : J ret q' := by
  -- at the end of the loop the promoted packets are the covered ones, and the ring took them all
  have hend : ∀ toks q₁, Covering (enqueueToks q (q.now K)) q toks q₁ →
      (peekToks q₁ toks < 0 ∨ q₁.qdisc.skbs = []) →
      toks = left ∧ q₁.qdisc.skbs = rest ∧
        ∀ l, RingAccepts l q₁.kfifo ↔ RingAccepts (offered ++ l) q.kfifo := by
    intro toks q₁ c hstop
    obtain ⟨hcovered, huncovered⟩ := covered_stop hstop
    have hrest' := c.rest
    have haccepts := c.accepts
    rw [huncovered, hrest] at hrest'
    rw [hcovered, hoffered] at haccepts
    exact ⟨(Prod.mk.inj hrest').1, (Prod.mk.inj hrest').2, haccepts⟩
  refine tsfPlain_outcome (J := J)
    (I := fun toks q₁ => I toks q₁ ∧ Covering (enqueueToks q (q.now K)) q toks q₁)
    ⟨h₀, rfl, rfl, rfl, fun l => Iff.rfl⟩ ?_ ?_ ?_ ?_ heq
  · rintro toks q₁ p l k ⟨hI, c⟩ hl hpos hk
    exact ⟨hpromote toks q₁ p l k hI hl hpos hk, c.promote hl hpos hk⟩
  · rintro toks q₁ p l ret k ⟨hI, c⟩ hl hpos hne hk
    refine hlost toks q₁ p l ret k hI (fun hall => ?_) hl hne hk
    have := (c.accepts []).mpr (by rwa [hoffered, List.append_nil])
    rw [hl, covered, if_pos hpos] at this
    exact not_ringAccepts_cons hk hne _ this
  · rintro toks q₁ ret k ⟨hI, c⟩ hstop hpos hk
    obtain ⟨rfl, hskbs, haccepts⟩ := hend toks q₁ c hstop
    rw [c.rate] at hpos ⊢
    refine hring q₁ ret k hI ?_ hskbs hpos ?_ hk
    · have := (haccepts []).mp trivial
      rwa [List.append_nil] at this
    · rw [← haccepts]
      constructor
      · rintro rfl
        exact (ringAccepts_cons hk []).mpr trivial
      · intro hall
        by_contra hne
        exact not_ringAccepts_cons hk hne _ hall
  · rintro toks q₁ ⟨hI, c⟩ hstop hneg
    obtain ⟨rfl, hskbs, haccepts⟩ := hend toks q₁ c hstop
    rw [c.rate] at hneg
    refine hpark q₁ _ hI ?_ hskbs c.verdict hneg
    have := (haccepts []).mp trivial
    rwa [List.append_nil] at this

theorem tsfPlain_routes {I : ℤ → Tsf → Prop} {J : Tsf → Prop} {left : ℤ} {rest : List Skb}
    {offered : List Skb}
    (hrest : uncovered q.rate (enqueueToks q (q.now K)) q.qdisc.skbs = (left, rest))
    (hoffered : covered q.rate (enqueueToks q (q.now K)) q.qdisc.skbs = offered)
    (h₀ : I (enqueueToks q (q.now K)) (q.begin skb))
    (hpromote : ∀ toks q₁ p l k, I toks q₁ → q₁.qdisc.skbs = p :: l →
      0 ≤ toks - q₁.rate.l2tNs p.pktLen → kfifoEnqueue (some p) q₁.kfifo = .ok (.success, k) →
      I (toks - q₁.rate.l2tNs p.pktLen)
        (q₁.promoted (q.now K) (toks - q₁.rate.l2tNs p.pktLen) p l k))
    (hlost : ∀ toks q₁ p l ret k, I toks q₁ → ¬RingAccepts offered q.kfifo →
      q₁.qdisc.skbs = p :: l → ret ≠ .success →
      kfifoEnqueue (some p) q₁.kfifo = .ok (ret, k) → J (q₁.lost (q.now K) p l ret k))
    (hring : ∀ q₁ ret k, I left q₁ → RingAccepts offered q.kfifo → q₁.qdisc.skbs = rest →
      0 ≤ left - q.rate.l2tNs skb.pktLen →
      (ret = .success ↔ RingAccepts (offered ++ [skb]) q.kfifo) →
      kfifoEnqueue (some skb) q₁.kfifo = .ok (ret, k) →
      J (((q₁.afterRing (q.now K) skb ret k).charged (q.now K)
        (left - q.rate.l2tNs skb.pktLen)).countDrop ret))
    (hpark : ∀ q₁ expiry, I left q₁ → RingAccepts offered q.kfifo → q₁.qdisc.skbs = rest →
      q₁.qdisc.verdict = q.qdisc.verdict → left - q.rate.l2tNs skb.pktLen < 0 →
      J ((tsfPark skb q₁).2.waiting expiry skb.pktLen))
    (heq : tsfPlain K skb q = .ok (ret, q')) : J q' :=
  tsfPlain_routed (J := fun _ q => J q) hrest hoffered h₀ hpromote hlost hring hpark heq

inductive Route
  | ring (seg : Skb)
  | park (seg : Skb)

/-- Where the segments go.  One that the balance pays for is charged at once, whatever the
ring answers. -/
def routes (K : Kernel) : List Skb → Tsf → List Route
  | [], _ => []
  | seg :: segs, q =>
    let toks := segmentToks q (q.now K) seg
    if 0 ≤ toks then .ring (markSegment seg) :: routes K segs (q.tick.charged (q.now K) toks)
    else .park (markSegment seg) :: routes K segs q.tick

def Route.toRing : Route → Option Skb
  | .ring seg => some seg
  | .park _ => none

structure Tsf.SameMeter (q q' : Tsf) : Prop where
  readings : q.readings = q'.readings
  tokens : q.tokens = q'.tokens
  tC : q.tC = q'.tC
  buffer : q.buffer = q'.buffer
  rate : q.rate = q'.rate

theorem routes_congr (h : q.SameMeter q') (segs : List Skb) : routes K segs q = routes K segs q' := by
  induction segs generalizing q q' with
  | nil => rfl
  | cons seg segs ih =>
    have hnow : q.now K = q'.now K := by rw [Tsf.now, Tsf.now, h.readings]
    have htoks : ∀ now, segmentToks q now seg = segmentToks q' now seg := by
      intro now
      rw [segmentToks, segmentToks, h.tokens, h.tC, h.buffer, h.rate]
    have hread : q.tick.readings = q'.tick.readings := congrArg (· + 1) h.readings
    simp only [routes, hnow, htoks]
    split_ifs
    · apply congrArg
      apply ih
      exact ⟨hread, rfl, rfl, h.buffer, h.rate⟩
    · apply congrArg
      apply ih
      exact ⟨hread, h.tokens, h.tC, h.buffer, h.rate⟩

theorem routes_beginSegments (segs : List Skb) :
    routes K segs (q.beginSegments segs) = routes K segs q := by
  apply routes_congr
  exact ⟨rfl, rfl, rfl, rfl, rfl⟩

theorem tsfSegmentOne_routes {seg : Skb} (heq : tsfSegmentOne K seg q = .ok (ret, q')) :
    (∃ k, kfifoEnqueue (some (markSegment seg)) q.kfifo = .ok (ret, k) ∧
      q' = ((q.tick.afterRing (q.now K) (markSegment seg) ret k).charged (q.now K)
        (segmentToks q (q.now K) seg)).countDrop ret ∧
      ∀ segs, routes K (seg :: segs) q = .ring (markSegment seg) :: routes K segs q') ∨
    (ret = (tsfPark (markSegment seg) q.tick).1 ∧
      q' = (tsfPark (markSegment seg) q.tick).2.countDrop ret ∧
      ∀ segs, routes K (seg :: segs) q = .park (markSegment seg) :: routes K segs q') := by
  rcases tsfSegmentOne_cases heq with ⟨hpos, k, hk, rfl⟩ | ⟨hneg, hret, rfl⟩
  · refine .inl ⟨k, hk, rfl, fun segs => ?_⟩
    simp only [routes, if_pos hpos]
    apply congrArg
    apply routes_congr
    exact ⟨rfl, rfl, rfl, rfl, rfl⟩
  · refine .inr ⟨hret, rfl, fun segs => ?_⟩
    simp only [routes, if_neg (not_le.mpr hneg)]
    apply congrArg
    apply routes_congr
    exact ⟨rfl, rfl, rfl, rfl, rfl⟩

/-- The ways in which the queues take a segment, with the routes of the segments after it. -/
inductive SegmentCase (K : Kernel) (seg : Skb) (q : Tsf) : NetXmit → Tsf → Prop
  | stored {k : Ring} {q' : Tsf} :
      kfifoEnqueue (some (markSegment seg)) q.kfifo = .ok (.success, k) →
      q' = (q.tick.afterRing (q.now K) (markSegment seg) .success k).charged (q.now K)
        (segmentToks q (q.now K) seg) →
      (∀ segs, routes K (seg :: segs) q = .ring (markSegment seg) :: routes K segs q') →
      SegmentCase K seg q .success q'
  | refused {ret : NetXmit} {q' : Tsf} : ret ≠ .success →
      kfifoEnqueue (some (markSegment seg)) q.kfifo = .ok (ret, q.kfifo) →
      q' = ((q.tick.afterRing (q.now K) (markSegment seg) ret q.kfifo).charged (q.now K)
        (segmentToks q (q.now K) seg)).countDrop ret →
      (∀ segs, routes K (seg :: segs) q = .ring (markSegment seg) :: routes K segs q') →
      SegmentCase K seg q ret q'
  | parked {q' : Tsf} : q.qdisc.verdict q.qdisc.skbs (markSegment seg) = .success →
      q' = q.tick.withQueue (q.qdisc.skbs ++ [markSegment seg]) →
      (∀ segs, routes K (seg :: segs) q = .park (markSegment seg) :: routes K segs q') →
      SegmentCase K seg q .success q'
  | freed {ret : NetXmit} {q' : Tsf} : ret ≠ .success →
      q.qdisc.verdict q.qdisc.skbs (markSegment seg) ≠ .success →
      q' = { q.tick with toFree := markSegment seg :: q.toFree }.countDrop ret →
      (∀ segs, routes K (seg :: segs) q = .park (markSegment seg) :: routes K segs q') →
      SegmentCase K seg q ret q'

theorem tsfSegmentOne_taken {seg : Skb} (h : Circular q.kfifo)
    (heq : tsfSegmentOne K seg q = .ok (ret, q')) : SegmentCase K seg q ret q' := by
  rcases tsfSegmentOne_routes heq with ⟨k, hk, hq, hroute⟩ | ⟨hret, hq, hroute⟩
  · by_cases hsuccess : ret = .success
    · subst hsuccess
      exact .stored hk hq hroute
    · obtain rfl := h.refused hk hsuccess
      exact .refused hsuccess hk hq hroute
  · rcases tsfPark_cases (markSegment seg) q.tick with ⟨hv, hp⟩ | ⟨ret', hv, hne, hp⟩
    · rw [hp] at hret hq
      subst hret
      exact .parked hv hq hroute
    · rw [hp] at hret hq
      subst hret
      exact .freed hne (hv.trans_ne hne) hq hroute

end MeasurementLimiter
