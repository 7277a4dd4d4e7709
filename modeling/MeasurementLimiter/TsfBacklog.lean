import MeasurementLimiter.TsfRoutes
import MeasurementLimiter.TsfSafety

namespace MeasurementLimiter

open Runs

variable {K : Kernel} {skb : Skb} {ret : NetXmit} {q₀ q q' : Tsf}

structure Tsf.Counted (q : Tsf) : Prop where
  qlen : q.qlen = q.qdisc.skbs.length
  backlog : q.backlog = (q.qdisc.skbs.map Skb.pktLen).sum

/-- The ring `k` refuses the segments it gets, and the inner queue, which holds `l`, refuses
those it gets or they have no bytes. -/
def Unstored (k : Ring) (verdict : List Skb → Skb → NetXmit) : List Skb → List Route → Prop
  | _, [] => True
  | l, .ring seg :: r => ¬RingAccepts [seg] k ∧ Unstored k verdict l r
  | l, .park seg :: r =>
    if verdict l seg = .success then seg.pktLen = 0 ∧ Unstored k verdict (l ++ [seg]) r
    else Unstored k verdict l r

def Tsf.SegmentsUnstored (K : Kernel) (skb : Skb) (q : Tsf) : Prop :=
  Unstored q.kfifo q.qdisc.verdict q.qdisc.skbs (routes K (K.skbGsoSegment skb) q)

def Tsf.PlainStored (K : Kernel) (skb : Skb) (q : Tsf) : Prop :=
  let toks := enqueueToks q (q.now K)
  let (left, rest) := uncovered q.rate toks q.qdisc.skbs
  RingAccepts (covered q.rate toks q.qdisc.skbs) q.kfifo ∧
    (left - q.rate.l2tNs skb.pktLen < 0 → q.qdisc.verdict rest skb = .success)

def Tsf.KeepsCount (K : Kernel) (q : Tsf) : TsfCall → Prop
  | .enqueue skb =>
    skb.daddr = deip →
      if Segments K skb q then q.SegmentsUnstored K skb else q.PlainStored K skb
  | .segment skb => q.SegmentsUnstored K skb
  | .dequeue _ => True

/-- In the loop over the segments: `parked` was put on the inner queue and `stored` segments
went to the ring. -/
structure Counting (K : Kernel) (q₀ : Tsf) (segs₀ segs : List Skb) (nb : ℕ) (q : Tsf) : Prop where
  circular : Circular q.kfifo
  qlen : q.qlen = q₀.qlen
  backlog : q.backlog = q₀.backlog
  verdict : q.qdisc.verdict = q₀.qdisc.verdict
  counts : ∃ (parked : List Skb) (stored : ℕ), q.qdisc.skbs = q₀.qdisc.skbs ++ parked ∧
    nb = stored + parked.length ∧
    if stored = 0 ∧ (parked.map Skb.pktLen).sum = 0 then
      Unstored q.kfifo q.qdisc.verdict q.qdisc.skbs (routes K segs q) ↔
        Unstored q₀.kfifo q₀.qdisc.verdict q₀.qdisc.skbs (routes K segs₀ q₀)
    else ¬Unstored q₀.kfifo q₀.qdisc.verdict q₀.qdisc.skbs (routes K segs₀ q₀)

theorem Counting.skip {segs₀ segs : List Skb} {seg : Skb} {nb : ℕ}
    (c : Counting K q₀ segs₀ (seg :: segs) nb q) (hcirc : Circular q'.kfifo)
    (hqlen : q'.qlen = q.qlen) (hbacklog : q'.backlog = q.backlog) (hqdisc : q'.qdisc = q.qdisc)
    (hiff : Unstored q.kfifo q.qdisc.verdict q.qdisc.skbs (routes K (seg :: segs) q) ↔
      Unstored q'.kfifo q'.qdisc.verdict q'.qdisc.skbs (routes K segs q')) :
    Counting K q₀ segs₀ segs nb q' := by
  obtain ⟨parked, stored, hskbs, hnb, hcase⟩ := c.counts
  refine ⟨hcirc, hqlen.trans c.qlen, hbacklog.trans c.backlog, by rw [hqdisc]; exact c.verdict,
    parked, stored, by rw [hqdisc, hskbs], hnb, ?_⟩
  rwa [hiff] at hcase

theorem Counting.store {segs₀ segs : List Skb} {seg : Skb} {nb : ℕ}
    (c : Counting K q₀ segs₀ (seg :: segs) nb q) (hcirc : Circular q'.kfifo)
    (hqlen : q'.qlen = q.qlen) (hbacklog : q'.backlog = q.backlog) (hqdisc : q'.qdisc = q.qdisc)
    (hno : ¬Unstored q.kfifo q.qdisc.verdict q.qdisc.skbs (routes K (seg :: segs) q)) :
    Counting K q₀ segs₀ segs (nb + 1) q' := by
  obtain ⟨parked, stored, hskbs, hnb, hcase⟩ := c.counts
  refine ⟨hcirc, hqlen.trans c.qlen, hbacklog.trans c.backlog, by rw [hqdisc]; exact c.verdict,
    parked, stored + 1, by rw [hqdisc, hskbs], by omega, ?_⟩
  rw [if_neg (by omega)]
  split_ifs at hcase with hnone
  · rwa [← hcase]
  · exact hcase

theorem Counting.park {segs₀ segs : List Skb} {seg p : Skb} {nb : ℕ}
    (c : Counting K q₀ segs₀ (seg :: segs) nb q) (hcirc : Circular q'.kfifo)
    (hqlen : q'.qlen = q.qlen) (hbacklog : q'.backlog = q.backlog)
    (hverdict : q'.qdisc.verdict = q.qdisc.verdict) (hskbs : q'.qdisc.skbs = q.qdisc.skbs ++ [p])
    (hiff : Unstored q.kfifo q.qdisc.verdict q.qdisc.skbs (routes K (seg :: segs) q) ↔
      p.pktLen = 0 ∧ Unstored q'.kfifo q'.qdisc.verdict q'.qdisc.skbs (routes K segs q')) :
    Counting K q₀ segs₀ segs (nb + 1) q' := by
  obtain ⟨parked, stored, hparked, hnb, hcase⟩ := c.counts
  refine ⟨hcirc, hqlen.trans c.qlen, hbacklog.trans c.backlog, hverdict.trans c.verdict,
    parked ++ [p], stored, ?_, ?_, ?_⟩
  · rw [hskbs, hparked, List.append_assoc]
  · rw [List.length_append, List.length_singleton]
    omega
  · rw [List.map_append, List.sum_append, List.map_singleton, List.sum_singleton]
    -- a packet without bytes leaves the backlog right, one with bytes makes it wrong for good
    rw [hiff] at hcase
    by_cases hempty : p.pktLen = 0
    · rw [hempty, add_zero]
      rwa [and_iff_right hempty] at hcase
    · rw [if_neg (by simp [hempty])]
      split_ifs at hcase
      · rw [← hcase]
        exact fun hall => hempty hall.1
      · exact hcase

theorem Counting.step {segs₀ segs : List Skb} {seg : Skb} {nb : ℕ}
    (c : Counting K q₀ segs₀ (seg :: segs) nb q) (heq : tsfSegmentOne K seg q = .ok (ret, q')) :
    Counting K q₀ segs₀ segs (if ret = .success then nb + 1 else nb) q' := by
  cases tsfSegmentOne_taken c.circular heq with
  | stored hk hq hroute =>
    subst hq
    rw [if_pos rfl]
    refine c.store (c.circular.of_enqueue hk) rfl rfl rfl ?_
    rw [hroute, Unstored]
    exact fun hall => hall.1 ⟨_, hk, trivial⟩
  | refused hne hk hq hroute =>
    subst hq
    rw [if_neg hne]
    refine c.skip c.circular rfl rfl rfl ?_
    rw [hroute, Unstored]
    exact and_iff_right (not_ringAccepts_cons hk hne [])
  | parked hv hq hroute =>
    subst hq
    rw [if_pos rfl]
    refine c.park (p := markSegment seg) c.circular rfl rfl rfl rfl ?_
    rw [hroute, Unstored, if_pos hv]
    rfl
  | freed hne hv hq hroute =>
    subst hq
    rw [if_neg hne]
    refine c.skip c.circular rfl rfl rfl ?_
    rw [hroute, Unstored, if_neg hv]
    rfl

theorem segment_counted_iff (h : Circular q.kfifo) (hc : q.Counted)
    (heq : tsfSegment K skb q = .ok (ret, q')) : q'.Counted ↔ q.SegmentsUnstored K skb := by
  unfold Tsf.SegmentsUnstored
  rcases tsfSegment_cases heq with ⟨hnil, rfl⟩ | ⟨-, nb, q₁, hloop, rfl⟩
  · rw [hnil]
    exact iff_of_true ⟨hc.qlen, hc.backlog⟩ trivial
  · have hbegin : Counting K q (K.skbGsoSegment skb) (K.skbGsoSegment skb) 0
        (q.beginSegments (K.skbGsoSegment skb)) := by
      refine ⟨h, rfl, rfl, rfl, [], 0, (List.append_nil _).symm, rfl, ?_⟩
      rw [if_pos ⟨rfl, rfl⟩, routes_beginSegments]
      rfl
    have c := tsfSegmentLoop_rule
      (I := fun segs nb q₁ => Counting K q (K.skbGsoSegment skb) segs nb q₁)
      (fun _ _ _ _ _ _ c hone => c.step hone) hbegin hloop
    obtain ⟨parked, stored, hskbs, hnb, hcase⟩ := c.counts
    obtain ⟨p, b, hq⟩ := endSegments_eq q₁ skb (K.skbGsoSegment skb) nb
    have hqlen := c.qlen
    have hbacklog := c.backlog
    rw [hc.qlen] at hqlen
    rw [hc.backlog] at hbacklog
    have hcounted : (q₁.endSegments skb (K.skbGsoSegment skb) nb).Counted ↔
        stored = 0 ∧ (parked.map Skb.pktLen).sum = 0 := by
      rw [hq]
      constructor
      · rintro ⟨hl, hb⟩
        simp only [hskbs, hqlen, hbacklog, hnb, List.length_append, List.map_append,
          List.sum_append, Nat.cast_add] at hl hb
        omega
      · rintro ⟨hs, hsum⟩
        refine ⟨?_, ?_⟩
        · simp only [hskbs, hqlen, hnb, List.length_append, hs]
          push_cast
          omega
        · simp only [hskbs, hbacklog, List.map_append, List.sum_append, hsum, add_zero]
    rw [hcounted]
    split_ifs at hcase with hnone
    · exact iff_of_true hnone (hcase.mp trivial)
    · exact iff_of_false hnone hcase

theorem Tsf.Counted.promoted (hc : q.Counted) {l : List Skb} (hl : q.qdisc.skbs = skb :: l)
    (now toks : ℤ) (k : Ring) : (q.promoted now toks skb l k).Counted := by
  have hqlen := hc.qlen
  have hbacklog := hc.backlog
  rw [hl] at hqlen hbacklog
  refine ⟨?_, ?_⟩
  · change q.qlen - 1 = l.length
    rw [hqlen, List.length_cons]
    push_cast
    omega
  · change q.backlog - skb.pktLen = ((l.map Skb.pktLen).sum : ℕ)
    rw [hbacklog, List.map_cons, List.sum_cons]
    push_cast
    omega

theorem Tsf.Counted.waiting_iff (hc : q.Counted) (skb : Skb) (expiry : ℤ) :
    ((tsfPark skb q).2.waiting expiry skb.pktLen).Counted ↔
      q.qdisc.verdict q.qdisc.skbs skb = .success := by
  have hqlen := hc.qlen
  have hbacklog := hc.backlog
  rcases tsfPark_cases skb q with ⟨hv, hp⟩ | ⟨ret, hv, hne, hp⟩
  · rw [hp]
    refine iff_of_true ⟨?_, ?_⟩ hv
    · change q.qlen + 1 = ((q.qdisc.skbs ++ [skb]).length : ℕ)
      rw [hqlen, List.length_append]
      push_cast
      rfl
    · change q.backlog + skb.pktLen = (((q.qdisc.skbs ++ [skb]).map Skb.pktLen).sum : ℕ)
      rw [hbacklog, List.map_append, List.sum_append]
      simp
  · rw [hp]
    refine iff_of_false (fun h => ?_) (by rw [hv]; exact hne)
    have hafter : q.qlen + 1 = q.qdisc.skbs.length := h.qlen
    omega

/-- The other path keeps the counters right exactly when the ring accepts the parked packets
it gets and the inner queue the new one. -/
theorem plain_counted_iff (hc : q.Counted) (heq : tsfPlain K skb q = .ok (ret, q')) :
    q'.Counted ↔ q.PlainStored K skb := by
  have hqlen := hc.qlen
  refine tsfPlain_routes (I := fun _ q₁ => q₁.Counted)
    (J := fun q' => q'.Counted ↔ q.PlainStored K skb)
    rfl rfl ⟨hc.qlen, hc.backlog⟩ ?_ ?_ ?_ ?_ heq
  · intro toks q₁ p l k hq₁ hl _ _
    exact hq₁.promoted hl _ _ k
  · intro toks q₁ p l ret k hq₁ hrefused hl _ _
    refine iff_of_false (fun h => ?_) fun h => hrefused h.1
    have hafter : q₁.qlen = l.length := h.qlen
    have hbefore := hq₁.qlen
    rw [hl, List.length_cons] at hbefore
    push_cast at hbefore
    omega
  · intro q₁ ret k hq₁ hall _ hpos _ _
    exact iff_of_true ⟨hq₁.qlen, hq₁.backlog⟩ ⟨hall, fun hneg => absurd hpos (not_le.mpr hneg)⟩
  · intro q₁ expiry hq₁ hall hrest hverdict hneg
    rw [hq₁.waiting_iff, hverdict, hrest]
    exact ⟨fun hv => ⟨hall, fun _ => hv⟩, fun h => h.2 hneg⟩

theorem counted_step_iff (h : RingInv q.kfifo) (hc : q.Counted) {c : TsfCall} {a : TsfAnswer}
    (heq : tsfStep K q c = .ok (a, q')) : q'.Counted ↔ q.KeepsCount K c := by
  cases tsfStep_cases heq with
  | @bypass skb hd =>
    have hcounted : (tsfBypass skb q).2.Counted := by
      rcases tsfBypass_cases skb q with hb | ⟨ret, -, hb⟩
      · rw [hb]
        exact ⟨hc.qlen, hc.backlog⟩
      · rw [hb]
        exact ⟨hc.qlen, hc.backlog⟩
    exact iff_of_true hcounted fun hdest => absurd hdest hd
  | segments hcall hseg =>
    rw [segment_counted_iff h.toCircular hc hseg]
    rcases hcall with rfl | ⟨rfl, hd, hs⟩
    · rfl
    · simp [Tsf.KeepsCount, hd, hs]
  | plain hd hs hplain =>
    rw [plain_counted_iff hc hplain]
    simp [Tsf.KeepsCount, hd, hs]
  | dequeue hcase =>
    refine iff_of_true ?_ trivial
    cases hcase with
    | bypass => exact ⟨hc.qlen, hc.backlog⟩
    | sent => exact ⟨hc.qlen, hc.backlog⟩
    | nothing => exact ⟨hc.qlen, hc.backlog⟩
    | finished => exact ⟨hc.qlen, hc.backlog⟩

/-- The counters are right in every state that a run passes exactly when all its calls meet
the condition. -/
theorem counted_iff_keepsCount {opt : Option TsfEnv} (hinit : tsfInit K opt = (0, q₀))
    {h : TsfHistory} (run : Run (tsfStep K) q₀ h q) :
    (∀ h' q', h' <+: h → Run (tsfStep K) q₀ h' q' → q'.Counted) ↔
      GuardedRun (tsfStep K) (Tsf.KeepsCount K) q₀ h q := by
  have hfresh := tsfInit_fresh hinit
  refine always_iff_guarded (J := fun q => RingInv q.kfifo) ?_ hfresh.ring.inv ?_ ?_ run
  · refine ⟨?_, ?_⟩
    · rw [hfresh.qlen, hfresh.qdisc]
      rfl
    · rw [hfresh.backlog, hfresh.qdisc]
      rfl
  · exact fun q c a q' hq heq => tsfStep_ring (fun k c a k' hk he => hk.of_step he) hq heq
  · exact fun q c a q' hq hc heq => counted_step_iff hq hc heq

theorem counted_iff_keepsCount_sample :
    ∃ h q, q.qdisc.skbs = [skbSample 1 1400] ∧
      ((∀ h' q', h' <+: h →
          Run (tsfStep (pairSample 3 1400 500)) (tsfSample (pairSample 3 1400 500) 1000000000) h' q' →
          q'.Counted) ↔
        GuardedRun (tsfStep (pairSample 3 1400 500)) (Tsf.KeepsCount (pairSample 3 1400 500))
          (tsfSample (pairSample 3 1400 500) 1000000000) h q) := by
  obtain ⟨h, q, run, hq⟩ := exists_run_of_exec (fun q : Tsf => q.qdisc.skbs)
    (b := [skbSample 1 1400])
    (show (exec (tsfStep (pairSample 3 1400 500)) (tsfSample (pairSample 3 1400 500) 1000000000)
      [.enqueue (skbSample 9 2800)]).toOption.map _ = _ by decide +kernel)
  exact ⟨h, q, hq, counted_iff_keepsCount (tsfSample_init _ _) run⟩

/-- One packet is parked, two are counted, and no byte. -/
theorem stored_segment_counted :
    tsfInit (pairSample 3 1400 500) (some (envSample 1000000000)) =
        (0, tsfSample (pairSample 3 1400 500) 1000000000) ∧
      ∃ h q, Run (tsfStep (pairSample 3 1400 500))
          (tsfSample (pairSample 3 1400 500) 1000000000) h q ∧
        q.qlen = 2 ∧ q.backlog = 0 ∧ q.qdisc.skbs = [skbSample 1 1400] ∧ ¬q.Counted := by
  obtain ⟨h, q, run, hq⟩ := exists_run_of_exec (fun q : Tsf => (q.qlen, q.backlog, q.qdisc.skbs))
    (b := (2, 0, [skbSample 1 1400]))
    (show (exec (tsfStep (pairSample 3 1400 500)) (tsfSample (pairSample 3 1400 500) 1000000000)
      [.enqueue (skbSample 9 2800)]).toOption.map _ = _ by decide +kernel)
  obtain ⟨hqlen, hrest⟩ := Prod.mk.inj hq
  obtain ⟨hbacklog, hskbs⟩ := Prod.mk.inj hrest
  refine ⟨tsfSample_init _ _, h, q, run, hqlen, hbacklog, hskbs, fun hc => ?_⟩
  have := hc.qlen
  rw [hqlen, hskbs] at this
  exact absurd this (by decide)

end MeasurementLimiter
