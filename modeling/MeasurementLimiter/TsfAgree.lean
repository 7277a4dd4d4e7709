import MeasurementLimiter.TsfTokens

namespace MeasurementLimiter

open Runs TokenBucket

variable {K : Kernel} {now : ℤ} {skb p seg : Skb} {ret ret' : NetXmit} {q q' q₁ q₁' : Tsf}

/-- The states have the same ring, the same parked packets, tokens and check-point. -/
structure Tsf.Agrees (q q' : Tsf) : Prop where
  kfifo : q.kfifo = q'.kfifo
  parked : q.qdisc.skbs = q'.qdisc.skbs
  tokens : q.tokens = q'.tokens
  tC : q.tC = q'.tC

/-- At the time `now`, which every later reading gives, packets are parked and the balance
does not pay for the first of them. -/
structure Blocked (K : Kernel) (now : ℤ) (q : Tsf) : Prop where
  clock : ∀ n, q.readings ≤ n → K.ktime n = now
  past : q.tC ≤ now
  parked : q.qdisc.skbs ≠ []
  short : peekToks q (enqueueToks q now) < 0

structure InStep (K : Kernel) (now : ℤ) (q q' : Tsf) : Prop extends Tsf.Agrees q q' where
  blocked : Blocked K now q
  clock : ∀ n, q'.readings ≤ n → K.ktime n = now
  buffer : q.buffer = q'.buffer
  rate : q.rate = q'.rate
  qdisc : q.qdisc = q'.qdisc

theorem peekToks_mono (q : Tsf) {toks toks' : ℤ} (h : toks ≤ toks') :
    peekToks q toks ≤ peekToks q toks' := by
  unfold peekToks
  split
  · exact h
  · exact sub_le_sub_right h _

theorem Blocked.now_eq (b : Blocked K now q) : q.now K = now := b.clock _ le_rfl

theorem Blocked.segmentToks_eq (b : Blocked K now q) (hdepth : 0 ≤ q.buffer) (seg : Skb) :
    segmentToks q now seg = enqueueToks q now - q.rate.l2tNs (markSegment seg).pktLen := by
  rw [MeasurementLimiter.segmentToks_eq, enqueueToks_eq hdepth b.past]

theorem segmentToks_le (q : Tsf) (now : ℤ) (seg : Skb) : segmentToks q now seg ≤ q.buffer := by
  have hle := capTokens_le q.buffer (min (now - q.tC) q.buffer + q.tokens)
  unfold segmentToks
  omega

theorem Blocked.charge (b : Blocked K now q) (hdepth₀ : 0 ≤ q.buffer) {toks : ℤ}
    (htoks : toks ≤ enqueueToks q now) (hclock : ∀ n, q₁.readings ≤ n → K.ktime n = now)
    (hbuffer : q₁.buffer = q.buffer)
    (hrate : q₁.rate = q.rate) (hqdisc : q₁.qdisc = q.qdisc) (htokens : q₁.tokens = toks)
    (htC : q₁.tC = now) : Blocked K now q₁ := by
  have hdepth : 0 ≤ q₁.buffer := hbuffer ▸ hdepth₀
  refine ⟨hclock, htC.le, hqdisc ▸ b.parked, ?_⟩
  have hle : enqueueToks q₁ now ≤ enqueueToks q now := by
    refine le_trans ?_ htoks
    rw [enqueueToks_eq hdepth htC.le, Bucket.level]
    change min q₁.buffer (q₁.tokens + min (now - q₁.tC) q₁.buffer) ≤ toks
    omega
  have hpeek : peekToks q₁ (enqueueToks q₁ now) = peekToks q (enqueueToks q₁ now) := by
    rw [peekToks, peekToks, hqdisc, hrate]
  rw [hpeek]
  exact (peekToks_mono q hle).trans_lt b.short

theorem Blocked.park (b : Blocked K now q) (hclock : ∀ n, q₁.readings ≤ n → K.ktime n = now)
    (hbuffer : q₁.buffer = q.buffer) (hrate : q₁.rate = q.rate) (htokens : q₁.tokens = q.tokens)
    (htC : q₁.tC = q.tC) {l : List Skb} (hskbs : q₁.qdisc.skbs = q.qdisc.skbs ++ l) :
    Blocked K now q₁ := by
  obtain ⟨p, l', hl⟩ := List.exists_cons_of_ne_nil b.parked
  have htoks : enqueueToks q₁ now = enqueueToks q now := by
    rw [enqueueToks, enqueueToks, hbuffer, htokens, htC]
  refine ⟨hclock, htC ▸ b.past, by simp [hskbs, hl], ?_⟩
  have hshort := b.short
  rw [peekToks_cons hl] at hshort
  rw [htoks, peekToks_cons (hskbs.trans (congrArg (· ++ l) hl)), hrate]
  exact hshort

theorem Blocked.plain_eq (b : Blocked K now q) (p : Skb) : tsfPlain K p q =
    tsfNew now p (enqueueToks q now) (peekToks q (enqueueToks q now)) q.qdisc.skbs.head?
      (q.begin p) := by
  have hstop : tsfPromoteAll now (enqueueToks q now) (q.begin p) = .ok (.finished
      (enqueueToks q now) (peekToks q (enqueueToks q now)) q.qdisc.skbs.head? (q.begin p)) :=
    tsfPromoteAll_stop (q := q.begin p) b.short
  rw [tsfPlain_eq, b.now_eq, hstop]

theorem tsfPark_qdisc (h : q.qdisc = q'.qdisc) (p : Skb) :
    (tsfPark p q).2.qdisc = (tsfPark p q').2.qdisc := by
  unfold tsfPark qdiscEnqueue
  rw [h]
  cases q'.qdisc.verdict q'.qdisc.skbs p with
  | success => rfl
  | drop => rfl
  | cn => rfl

theorem InStep.ring (i : InStep K now q q') (hdepth : 0 ≤ q.buffer) {toks : ℤ}
    (htoks : toks ≤ enqueueToks q now) (p : Skb) (ret : NetXmit) (k : Ring) :
    InStep K now (((q.tick.afterRing now p ret k).charged now toks).countDrop ret)
      ((((q'.begin p).afterRing now p ret k).charged now toks).countDrop ret) where
  kfifo := rfl
  parked := i.parked
  tokens := rfl
  tC := rfl
  blocked := i.blocked.charge hdepth htoks
    (fun n hn => i.blocked.clock n (Nat.le_of_succ_le hn)) rfl rfl
    rfl rfl rfl
  clock n hn := i.clock n (Nat.le_of_succ_le hn)
  buffer := i.buffer
  rate := i.rate
  qdisc := i.qdisc

theorem InStep.park (i : InStep K now q q') (p : Skb) (ret : NetXmit) (expiry : ℤ) :
    InStep K now ((tsfPark p q.tick).2.countDrop ret)
      ((tsfPark p (q'.begin p)).2.waiting expiry p.pktLen) := by
  have hbefore : q.tick.qdisc = (q'.begin p).qdisc := i.qdisc
  have hqdisc := tsfPark_qdisc hbefore p
  obtain ⟨l, hl⟩ := tsfPark_skbs p q.tick
  rw [tsfPark_eq p q.tick, tsfPark_eq p (q'.begin p)]
  refine ⟨⟨i.kfifo, congrArg Qdisc.skbs hqdisc, i.tokens, i.tC⟩, ?_, ?_, i.buffer, i.rate, hqdisc⟩
  · exact i.blocked.park (fun n hn => i.blocked.clock n (Nat.le_of_succ_le hn)) rfl rfl rfl rfl hl
  · exact fun n hn => i.clock n (Nat.le_of_succ_le hn)

theorem InStep.step (i : InStep K now q q') (hone : tsfSegmentOne K seg q = .ok (ret, q₁))
    (hplain : tsfPlain K (markSegment seg) q' = .ok (ret', q₁')) : InStep K now q₁ q₁' := by
  have b := i.blocked
  have b' : Blocked K now q' := by
    refine ⟨i.clock, i.tC ▸ b.past, i.parked ▸ b.parked, ?_⟩
    have hshort := b.short
    rwa [peekToks, enqueueToks, i.buffer, i.tokens, i.tC, i.qdisc, i.rate] at hshort
  have hsame : 0 ≤ q.buffer → segmentToks q now seg =
      enqueueToks q' now - q'.rate.l2tNs (markSegment seg).pktLen := by
    intro hdepth
    rw [b.segmentToks_eq hdepth, enqueueToks, i.buffer, i.tokens, i.tC, i.rate]
    rfl
  rw [b'.plain_eq] at hplain
  have hcases := tsfSegmentOne_cases hone
  rw [b.now_eq, i.kfifo] at hcases
  have hdepth : 0 ≤ segmentToks q now seg → 0 ≤ q.buffer :=
    fun h => h.trans (segmentToks_le q now seg)
  rcases hcases with ⟨hpos, k, hk, rfl⟩ | ⟨hneg, -, rfl⟩ <;>
    rcases tsfNew_cases hplain with ⟨hpos', k', hk', rfl⟩ | ⟨hneg', -, rfl⟩
  · obtain ⟨rfl, rfl⟩ : ret = ret' ∧ k = k' := by
      have hk' : kfifoEnqueue (some (markSegment seg)) q'.kfifo = .ok (ret', k') := hk'
      rw [hk] at hk'
      exact Prod.mk.inj (Except.ok.inj hk')
    have htoks : segmentToks q now seg ≤ enqueueToks q now := by
      rw [b.segmentToks_eq (hdepth hpos)]
      omega
    have hring := i.ring (hdepth hpos) htoks (markSegment seg) ret k
    rw [hsame (hdepth hpos)] at hring ⊢
    exact hring
  · have hneg' : enqueueToks q' now - q'.rate.l2tNs (markSegment seg).pktLen < 0 := hneg'
    have heq := hsame (hdepth hpos)
    omega
  · have hpos' : 0 ≤ enqueueToks q' now - q'.rate.l2tNs (markSegment seg).pktLen := hpos'
    have hcap : enqueueToks q' now ≤ q'.buffer := capTokens_le _ _
    have heq := hsame (by rw [i.buffer]; omega)
    omega
  · exact i.park (markSegment seg) ret _

theorem InStep.run (i : InStep K now q q') {segs : List Skb} {nb nb' : ℕ}
    {h : List (Skb × NetXmit)} (hloop : tsfSegmentLoop K segs nb q = .ok (nb', q₁))
    (hexec : exec (fun q p => tsfPlain K p q) q' (segs.map markSegment) = .ok (h, q₁')) :
    q₁.Agrees q₁' := by
  induction segs generalizing q q' nb h with
  | nil =>
    obtain ⟨-, rfl⟩ := Prod.mk.inj (Except.ok.inj hloop)
    obtain ⟨-, rfl⟩ := Prod.mk.inj (Except.ok.inj hexec)
    exact i.toAgrees
  | cons seg segs ih =>
    obtain ⟨ret', q₂', h', hplain, hrest, -⟩ := exec_cons hexec
    simp only [tsfSegmentLoop] at hloop
    split at hloop
    · cases hloop
    · rename_i ret q₂ hone
      exact ih (i.step hone hplain) hloop hrest

def Leaving (p : Skb) (toks : ℤ) (q : Tsf) : Prop :=
  p ∉ q.qdisc.skbs ∨ ∃ l, q.qdisc.skbs = p :: l ∧ p ∉ l ∧ 0 ≤ peekToks q toks

theorem Leaving.tail {toks : ℤ} (h : Leaving p toks q) {l : List Skb} (hl : q.qdisc.skbs = skb :: l) :
    p ∉ l := by
  rcases h with hmem | ⟨l', hl', hmem, -⟩
  · rw [hl] at hmem
    exact fun hp => hmem (List.mem_cons_of_mem skb hp)
  · rw [hl] at hl'
    exact (List.cons.inj hl').2 ▸ hmem

theorem Leaving.left {toks : ℤ} (h : Leaving p toks q)
    (hend : peekToks q toks < 0 ∨ q.qdisc.skbs = []) : p ∉ q.qdisc.skbs := by
  rcases h with hmem | ⟨l, hl, -, hpos⟩
  · exact hmem
  · rcases hend with hneg | hnil
    · exact absurd hpos (not_le.mpr hneg)
    · rw [hnil]
      exact List.not_mem_nil

theorem Leaving.plain (h : Leaving p (enqueueToks q (q.now K)) q) (hne : p ≠ skb)
    (heq : tsfPlain K skb q = .ok (ret, q')) : p ∉ q'.qdisc.skbs := by
  refine tsfPlain_rule (I := Leaving p) (J := fun q => p ∉ q.qdisc.skbs) h ?_ ?_ ?_ ?_ heq
  · exact fun toks q₁ p' l k hq₁ hl _ _ => .inl (hq₁.tail hl)
  · exact fun toks q₁ p' l ret k hq₁ hl _ _ _ => hq₁.tail hl
  · exact fun toks q₁ ret k hq₁ hend _ _ => hq₁.left hend
  · intro toks q₁ expiry hq₁ hend _
    have hmem := hq₁.left hend
    rcases tsfPark_cases skb q₁ with ⟨-, hp⟩ | ⟨ret, -, -, hp⟩
    · rw [hp]
      change p ∉ q₁.qdisc.skbs ++ [skb]
      simp [hmem, hne]
    · rw [hp]
      exact hmem

theorem Leaving.run {segs : List Skb} {h : List (Skb × NetXmit)} (hmem : p ∉ q.qdisc.skbs)
    (hne : p ∉ segs) (hexec : exec (fun q p => tsfPlain K p q) q segs = .ok (h, q₁)) :
    p ∉ q₁.qdisc.skbs := by
  induction segs generalizing q h with
  | nil =>
    obtain ⟨-, rfl⟩ := Prod.mk.inj (Except.ok.inj hexec)
    exact hmem
  | cons seg segs ih =>
    obtain ⟨ret, q₂, h', hplain, hrest, -⟩ := exec_cons hexec
    rw [List.mem_cons, not_or] at hne
    exact ih (Leaving.plain (.inl hmem) hne.1 hplain) hne.2 hrest

theorem Leaving.first {segs : List Skb} {h : List (Skb × NetXmit)}
    (hfirst : ∃ l, q.qdisc.skbs = p :: l ∧ p ∉ l ∧ 0 ≤ peekToks q (enqueueToks q (q.now K)))
    (hne : p ∉ segs) (hsegs : segs ≠ [])
    (hexec : exec (fun q p => tsfPlain K p q) q segs = .ok (h, q₁)) : p ∉ q₁.qdisc.skbs := by
  obtain ⟨seg, segs, rfl⟩ := List.exists_cons_of_ne_nil hsegs
  obtain ⟨ret, q₂, h', hplain, hrest, -⟩ := exec_cons hexec
  rw [List.mem_cons, not_or] at hne
  exact Leaving.run (Leaving.plain (.inr hfirst) hne.1 hplain) hne.2 hrest

theorem segmentLoop_parked {segs : List Skb} {nb nb' : ℕ} (hmem : p ∈ q.qdisc.skbs)
    (hloop : tsfSegmentLoop K segs nb q = .ok (nb', q₁)) : p ∈ q₁.qdisc.skbs := by
  refine tsfSegmentLoop_rule (I := fun _ _ q => p ∈ q.qdisc.skbs) ?_ hmem hloop
  intro seg _ _ q ret q' hp hone
  rcases tsfSegmentOne_cases hone with ⟨-, k, -, rfl⟩ | ⟨-, -, rfl⟩
  · exact hp
  · obtain ⟨l, hl⟩ := tsfPark_skbs (markSegment seg) q.tick
    change p ∈ (tsfPark (markSegment seg) q.tick).2.qdisc.skbs
    rw [hl]
    exact List.mem_append_left l hp

/-- With packets parked and one time for all readings, `tsf_segment` and the calls of
`tsf_enqueue` for the segments one after another agree exactly when there are no segments or
the balance does not pay for the first parked packet. -/
theorem segment_agrees_iff (hpast : q.tC ≤ now)
    (hclock : ∀ n, q.readings ≤ n → K.ktime n = now) (hparked : q.qdisc.skbs ≠ [])
    (hdistinct : (q.qdisc.skbs ++ (K.skbGsoSegment skb).map markSegment).Nodup)
    (hseg : tsfSegment K skb q = .ok (ret, q₁)) {h : List (Skb × NetXmit)}
    (hexec : exec (fun q p => tsfPlain K p q) q ((K.skbGsoSegment skb).map markSegment) =
      .ok (h, q₁')) :
    q₁.Agrees q₁' ↔ K.skbGsoSegment skb = [] ∨ peekToks q (enqueueToks q now) < 0 := by
  rcases tsfSegment_cases hseg with ⟨hnil, rfl⟩ | ⟨hsegs, nb, q₂, hloop, rfl⟩
  · rw [hnil] at hexec
    obtain ⟨-, rfl⟩ := Prod.mk.inj (Except.ok.inj hexec)
    exact iff_of_true ⟨rfl, rfl, rfl, rfl⟩ (.inl hnil)
  · obtain ⟨n, len, hq₁⟩ := endSegments_eq q₂ skb (K.skbGsoSegment skb) nb
    rw [hq₁, or_iff_right hsegs]
    constructor
    -- the first parked packet conforms: the other path promotes it, the segment path never does
    · intro hagrees
      by_contra hpos
      obtain ⟨p, l, hl⟩ := List.exists_cons_of_ne_nil hparked
      rw [hl, List.cons_append, List.nodup_cons, List.mem_append, not_or] at hdistinct
      obtain ⟨⟨hl', hnew⟩, -⟩ := hdistinct
      have hleft : p ∉ q₁'.qdisc.skbs := by
        refine Leaving.first ⟨l, hl, hl', ?_⟩ hnew (by simpa using hsegs) hexec
        rw [Tsf.now, hclock _ le_rfl]
        exact not_lt.mp hpos
      have hstays : p ∈ q₂.qdisc.skbs :=
        segmentLoop_parked (q := q.beginSegments (K.skbGsoSegment skb)) (hl ▸ List.mem_cons_self) hloop
      exact hleft (hagrees.parked ▸ hstays)
    -- the balance is too low to promote anything: both paths do the same to each segment
    · intro hshort
      have b : Blocked K now q := ⟨hclock, hpast, hparked, hshort⟩
      have i : InStep K now (q.beginSegments (K.skbGsoSegment skb)) q :=
        ⟨⟨rfl, rfl, rfl, rfl⟩, ⟨hclock, hpast, hparked, hshort⟩, hclock, rfl, rfl, rfl⟩
      have hagrees := i.run hloop hexec
      exact ⟨hagrees.kfifo, hagrees.parked, hagrees.tokens, hagrees.tC⟩

/-- A kernel that segments the packet `skbSample 8 2800` into `p`, and every other one into
`segs`. -/
def parkingSample (late : ℕ) (p : Skb) (segs : List Skb) : Kernel :=
  { kernelSample late segs with
    skbGsoSegment := fun skb => if skb = skbSample 8 2800 then [p] else segs }

theorem segment_agrees_iff_sample :
    let K := parkingSample 0 (skbSample 1 1400) [skbSample 2 500, skbSample 3 900]
    let q := tsfSampleAfter K 100000000 [.segment (skbSample 8 2800)]
    q.qdisc.skbs = [skbSample 1 1400] ∧ ∃ ret h q₁ q₁',
      tsfSegment K (skbSample 9 1400) q = .ok (ret, q₁) ∧
      exec (fun q p => tsfPlain K p q) q [skbSample 2 500, skbSample 3 900] = .ok (h, q₁') ∧
      q₁.qdisc.skbs = [skbSample 1 1400, skbSample 3 900] ∧ q₁.Agrees q₁' := by
  intro K q
  obtain ⟨⟨ret, q₁⟩, hseg, hq₁⟩ := exists_ok (fun r : NetXmit × Tsf => r.2.qdisc.skbs)
    (b := [skbSample 1 1400, skbSample 3 900])
    (show (tsfSegment K (skbSample 9 1400) q).toOption.map _ = _ by decide +kernel)
  obtain ⟨⟨h, q₁'⟩, hexec, -⟩ := exists_ok (fun r : List (Skb × NetXmit) × Tsf => r.2.tokens)
    (b := 5000) (show (exec (fun q p => tsfPlain K p q) q
      [skbSample 2 500, skbSample 3 900]).toOption.map _ = _ by decide +kernel)
  refine ⟨by decide +kernel, ret, h, q₁, q₁', hseg, hexec, hq₁, ?_⟩
  have hclock : ∀ n, q.readings ≤ n → K.ktime n = 10000 := fun n _ => rfl
  exact (segment_agrees_iff (by decide +kernel) hclock (by decide +kernel)
    (by decide +kernel) hseg hexec).mpr (.inr (by decide +kernel))

/-- The parked packet needs 9000 of the 10000 ns, and the segment 5000 ns.  `tsf_enqueue` sends
the parked packet and parks the segment; `tsf_segment` sends the segment before it. -/
theorem segment_overtakes :
    let K := parkingSample 1 (skbSample 1 900) [skbSample 2 500]
    let q := tsfSampleAfter K 100000000 [.segment (skbSample 8 2800)]
    tsfInit K (some (envSample 100000000)) = (0, tsfSample K 100000000) ∧
      Run (tsfStep K) (tsfSample K 100000000)
        [(.segment (skbSample 8 2800), .verdict .success)] q ∧
      (∀ n, q.readings ≤ n → K.ktime n = 10000) ∧ ∃ q₁ q₁',
        tsfSegment K (skbSample 9 1400) q = .ok (.success, q₁) ∧
        exec (fun q p => tsfPlain K p q) q [skbSample 2 500] =
          .ok ([(skbSample 2 500, .success)], q₁') ∧
        q₁.qdisc.skbs = [skbSample 1 900] ∧ q₁'.qdisc.skbs = [skbSample 2 500] ∧
        ¬q₁.Agrees q₁' := by
  intro K q
  have hreadings : q.readings = 1 := by decide +kernel
  obtain ⟨⟨ret, q₁⟩, hseg, hq₁⟩ := exists_ok (fun r : NetXmit × Tsf => (r.1, r.2.qdisc.skbs))
    (b := (.success, [skbSample 1 900]))
    (show (tsfSegment K (skbSample 9 1400) q).toOption.map _ = _ by decide +kernel)
  obtain ⟨⟨h, q₁'⟩, hexec, hq₁'⟩ := exists_ok
    (fun r : List (Skb × NetXmit) × Tsf => (r.1, r.2.qdisc.skbs))
    (b := ([(skbSample 2 500, .success)], [skbSample 2 500]))
    (show (exec (fun q p => tsfPlain K p q) q [skbSample 2 500]).toOption.map _ = _ by
      decide +kernel)
  obtain ⟨rfl, hparked⟩ := Prod.mk.inj hq₁
  obtain ⟨rfl, hparked'⟩ := Prod.mk.inj hq₁'
  refine ⟨tsfSample_init K 100000000, tsfSampleAfter_run (by decide +kernel), fun n hn => ?_,
    q₁, q₁', hseg, hexec, hparked, hparked', fun hagrees => ?_⟩
  · rw [hreadings] at hn
    exact if_neg (not_lt.mpr hn)
  · have := hagrees.parked
    rw [hparked, hparked'] at this
    exact absurd this (by decide)

end MeasurementLimiter
