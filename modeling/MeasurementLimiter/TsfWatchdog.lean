import MeasurementLimiter.TsfTokens

namespace MeasurementLimiter

open Runs TokenBucket

variable {K : Kernel} {now toks : ℤ} {skb : Skb} {ret : NetXmit} {q₀ q q' : Tsf}

def Tsf.conformTimes (q : Tsf) (now : ℤ) (head : Skb) : Set ℤ :=
  {t | now ≤ t ∧
    (q.rate.l2tNs head.pktLen : ℤ) ≤ min (min (t - q.tC) q.buffer + q.tokens) q.buffer}

/-- The watchdog expires when the head of the inner queue conforms, unless it never does. -/
def Tsf.WakesHead (q : Tsf) (now : ℤ) : Prop :=
  ∃ t head, q.watchdog = some t ∧ q.qdisc.skbs.head? = some head ∧
    (q.rate.l2tNs head.pktLen ≤ q.buffer → IsLeast (q.conformTimes now head) t)

theorem conformTimes_eq (q : Tsf) (now : ℤ) (head : Skb) : q.conformTimes now head =
    {t | now ≤ t ∧ (q.rate.l2tNs head.pktLen : ℤ) ≤ q.bucket.level q.buffer t} := by
  ext t
  refine and_congr_right fun _ => ?_
  rw [min_comm, add_comm]
  rfl

/-- In the loop of `tsf_enqueue` the balance is the level of the bucket. -/
structure Tsf.Carries (now toks : ℤ) (q : Tsf) : Prop where
  valid : q.bucket.Valid q.buffer
  level : q.bucket.level q.buffer now = toks

theorem Tsf.Carries.promoted {l : List Skb} (c : q.Carries now toks)
    (hpos : 0 ≤ toks - q.rate.l2tNs skb.pktLen) (k : Ring) :
    (q.promoted now (toks - q.rate.l2tNs skb.pktLen) skb l k).Carries now
      (toks - q.rate.l2tNs skb.pktLen) := by
  have hle : toks ≤ q.buffer := c.level ▸ Bucket.level_le_depth
  have hbuffer : 0 ≤ q.buffer := c.valid.nonneg.trans c.valid.le_depth
  have hle' : toks - q.rate.l2tNs skb.pktLen ≤ q.buffer := by omega
  exact ⟨⟨hpos, hle'⟩, level_charged (q := q) hbuffer hle'⟩

/-- The balance that the code hands to the watchdog is that of the head of the inner queue,
also when the new packet is its head. -/
theorem Tsf.Carries.wakes (c : q.Carries now toks)
    (hstop : peekToks q toks < 0 ∨ q.qdisc.skbs = []) (hneg : toks - q.rate.l2tNs skb.pktLen < 0)
    (hparked : q.qdisc.verdict q.qdisc.skbs skb = .success) :
    ((tsfPark skb q).2.waiting (now - if q.qdisc.skbs.head?.isSome then peekToks q toks
      else toks - q.rate.l2tNs skb.pktLen) skb.pktLen).WakesHead now := by
  rcases tsfPark_cases skb q with ⟨-, hp⟩ | ⟨ret, hv, hne, -⟩
  · rw [hp]
    suffices ∃ head, (q.qdisc.skbs ++ [skb]).head? = some head ∧
        toks - q.rate.l2tNs head.pktLen < 0 ∧
        (if q.qdisc.skbs.head?.isSome then peekToks q toks else toks - q.rate.l2tNs skb.pktLen) =
          toks - q.rate.l2tNs head.pktLen by
      obtain ⟨head, hhead, hlow, hexpiry⟩ := this
      refine ⟨_, head, rfl, hhead, fun hle => ?_⟩
      rw [conformTimes_eq, hexpiry]
      change IsLeast {t | now ≤ t ∧ (q.rate.l2tNs head.pktLen : ℤ) ≤ q.bucket.level q.buffer t}
        (now - (toks - q.rate.l2tNs head.pktLen))
      -- a bucket that is short pays at the least time at which the missing tokens are there
      have hshort : q.bucket.level q.buffer now < (q.rate.l2tNs head.pktLen : ℤ) := by
        rw [c.level]
        omega
      have hpays := c.valid.isLeast_pays hshort hle
      rwa [c.level, show now + ((q.rate.l2tNs head.pktLen : ℤ) - toks) =
        now - (toks - q.rate.l2tNs head.pktLen) by ring] at hpays
    cases hl : q.qdisc.skbs with
    | nil => exact ⟨skb, rfl, hneg, rfl⟩
    | cons head l =>
      have hpeek := peekToks_cons hl toks
      refine ⟨head, rfl, ?_, hpeek⟩
      rw [← hpeek]
      exact hstop.resolve_right (by simp [hl])
  · exact absurd (hv.symm.trans hparked) hne

theorem plain_wakes (hvalid : q.bucket.Valid q.buffer) (hpast : q.tC ≤ q.now K)
    (hnew : skb ∉ q.qdisc.skbs) (heq : tsfPlain K skb q = .ok (ret, q'))
    (hparked : skb ∈ q'.qdisc.skbs) : q'.WakesHead (q.now K) := by
  have hbuffer : 0 ≤ q.buffer := hvalid.nonneg.trans hvalid.le_depth
  have hbegin : (q.begin skb).Carries (q.now K) (enqueueToks q (q.now K)) :=
    ⟨hvalid, (enqueueToks_eq hbuffer hpast).symm⟩
  refine tsfPlain_outcome (I := fun toks q₁ => q₁.Carries (q.now K) toks ∧ skb ∉ q₁.qdisc.skbs)
    (J := fun _ q' => skb ∈ q'.qdisc.skbs → q'.WakesHead (q.now K))
    ⟨hbegin, hnew⟩ ?_ ?_ ?_ ?_ heq hparked
  · rintro toks q₁ p l k ⟨c, hskb⟩ hl hpos -
    refine ⟨c.promoted hpos k, fun hmem => hskb ?_⟩
    rw [hl]
    exact List.mem_cons_of_mem p hmem
  · rintro toks q₁ p l ret k ⟨-, hskb⟩ hl - - - hmem
    refine absurd ?_ hskb
    rw [hl]
    exact List.mem_cons_of_mem p hmem
  · rintro toks q₁ ret k ⟨-, hskb⟩ - - - hmem
    exact absurd hmem hskb
  · rintro toks q₁ ⟨c, hskb⟩ hstop hneg hmem
    refine c.wakes hstop hneg ?_
    rcases tsfPark_cases skb q₁ with ⟨hv, -⟩ | ⟨ret, -, -, hp⟩
    · exact hv
    · rw [hp] at hmem
      exact absurd hmem hskb

theorem tsfSegment_parks (heq : tsfSegment K skb q = .ok (ret, q')) :
    ∀ p ∈ q'.qdisc.skbs, p ∈ q.qdisc.skbs ∨ ∃ seg ∈ K.skbGsoSegment skb, p = markSegment seg := by
  rcases tsfSegment_cases heq with ⟨-, rfl⟩ | ⟨-, nb, q₁, hloop, rfl⟩
  · exact fun p hp => .inl hp
  · have hend := tsfSegmentLoop_rule (q := q.beginSegments (K.skbGsoSegment skb))
      (I := fun segs _ q₁ => (∀ seg ∈ segs, seg ∈ K.skbGsoSegment skb) ∧ ∀ p ∈ q₁.qdisc.skbs,
        p ∈ q.qdisc.skbs ∨ ∃ seg ∈ K.skbGsoSegment skb, p = markSegment seg)
      ?_ ⟨fun _ hseg => hseg, fun p hp => .inl hp⟩ hloop
    · obtain ⟨p, b, hq⟩ := endSegments_eq q₁ skb (K.skbGsoSegment skb) nb
      rw [hq]
      exact hend.2
    · rintro seg segs nb q₁ ret q₂ ⟨hsub, hall⟩ hone
      refine ⟨fun s hs => hsub s (List.mem_cons_of_mem seg hs), ?_⟩
      rcases tsfSegmentOne_cases hone with ⟨-, k, -, rfl⟩ | ⟨-, -, rfl⟩
      · exact hall
      · rcases tsfPark_cases (markSegment seg) q₁.tick with ⟨-, hp⟩ | ⟨ret, -, -, hp⟩
        · rw [hp]
          intro p hmem
          rcases List.mem_append.mp hmem with hmem | hmem
          · exact hall p hmem
          · exact .inr ⟨seg, hsub seg List.mem_cons_self, List.mem_singleton.mp hmem⟩
        · rw [hp]
          exact hall

/-- Every call of `tsf_enqueue` that parks the new packet schedules the watchdog for the
least time from now on at which the head of the inner queue conforms, if it ever does. -/
theorem watchdog_exact (hnonneg : 0 ≤ q.tokens) (hle : q.tokens ≤ q.buffer) (hpast : q.tC ≤ q.now K)
    (hsegs : ∀ seg ∈ K.skbGsoSegment skb, markSegment seg ≠ skb) (hnew : skb ∉ q.qdisc.skbs)
    (heq : tsfEnqueue K skb q = .ok (ret, q')) (hparked : skb ∈ q'.qdisc.skbs) :
    q'.WakesHead (q.now K) := by
  by_cases hd : skb.daddr = deip
  · by_cases hs : Segments K skb q
    · rw [tsfEnqueue_segment hd hs] at heq
      rcases tsfSegment_parks heq skb hparked with hold | ⟨seg, hseg, hskb⟩
      · exact absurd hold hnew
      · exact absurd hskb.symm (hsegs seg hseg)
    · rw [tsfEnqueue_plain hd hs] at heq
      exact plain_wakes ⟨hnonneg, hle⟩ hpast hnew heq hparked
  · rw [tsfEnqueue, if_pos hd] at heq
    rcases tsfBypass_cases skb q with hb | ⟨ret, -, hb⟩
    · rw [hb] at heq
      obtain ⟨-, rfl⟩ := Prod.mk.inj (Except.ok.inj heq)
      exact absurd hparked hnew
    · rw [hb] at heq
      obtain ⟨-, rfl⟩ := Prod.mk.inj (Except.ok.inj heq)
      exact absurd hparked hnew

def wakingSample : Tsf :=
  tsfSampleAfter (pairSample 3 1400 500) 1000000000 [.enqueue (skbSample 9 2800)]

theorem watchdog_exact_sample :
    ∃ ret q', tsfEnqueue (pairSample 3 1400 500) (skbSample 3 800) wakingSample = .ok (ret, q') ∧
      q'.watchdog = some 1900 ∧ q'.qdisc.skbs = [skbSample 1 1400, skbSample 3 800] ∧
      q'.WakesHead 1000 := by
  obtain ⟨⟨ret, q'⟩, heq, hq⟩ := exists_ok (fun r : NetXmit × Tsf => (r.2.watchdog, r.2.qdisc.skbs))
    (b := (some 1900, [skbSample 1 1400, skbSample 3 800]))
    (show (tsfEnqueue (pairSample 3 1400 500) (skbSample 3 800) wakingSample).toOption.map _ = _ by
      decide +kernel)
  obtain ⟨hwatchdog, hskbs⟩ := Prod.mk.inj hq
  have hnow : wakingSample.now (pairSample 3 1400 500) = 1000 := by decide +kernel
  refine ⟨ret, q', heq, hwatchdog, hskbs, ?_⟩
  rw [← hnow]
  exact watchdog_exact (by decide +kernel) (by decide +kernel) (by decide +kernel)
    (by decide +kernel) (by decide +kernel) heq (hskbs ▸ by decide)

end MeasurementLimiter
