import MeasurementLimiter.TsfTokens

namespace MeasurementLimiter

open Runs TokenBucket

variable {K : Kernel} {now toks : ℤ} {skb : Skb} {ret : NetXmit} {q₀ q q' : Tsf}

section Ring

variable {I : Ring → Prop}

theorem segment_ring
    (hstore : ∀ skb k ret k', I k → kfifoEnqueue (some skb) k = .ok (ret, k') → I k')
    (h : I q.kfifo) (heq : tsfSegment K skb q = .ok (ret, q')) : I q'.kfifo := by
  rcases tsfSegment_cases heq with ⟨-, rfl⟩ | ⟨-, nb, q₁, hloop, rfl⟩
  · exact h
  · have hbegin : I (q.beginSegments (K.skbGsoSegment skb)).kfifo := h
    have hone : ∀ (seg : Skb) (segs : List Skb) (nb : ℕ) (q : Tsf) (ret : NetXmit) (q' : Tsf),
        I q.kfifo → tsfSegmentOne K seg q = .ok (ret, q') → I q'.kfifo := by
      intro seg segs nb q ret q' hq hone
      rcases tsfSegmentOne_cases hone with ⟨-, k, hk, rfl⟩ | ⟨-, -, rfl⟩
      · exact hstore _ _ _ _ hq hk
      · exact hq
    have hend := tsfSegmentLoop_rule (I := fun _ _ q => I q.kfifo) hone hbegin hloop
    obtain ⟨p, b, hq⟩ := endSegments_eq q₁ skb (K.skbGsoSegment skb) nb
    rw [hq]
    exact hend

theorem plain_ring
    (hstore : ∀ skb k ret k', I k → kfifoEnqueue (some skb) k = .ok (ret, k') → I k')
    (h : I q.kfifo) (heq : tsfPlain K skb q = .ok (ret, q')) : I q'.kfifo := by
  refine tsfPlain_rule (I := fun _ q => I q.kfifo) (J := fun q => I q.kfifo) h ?_ ?_ ?_ ?_ heq
  · intro toks q₁ p l k hq _ _ hk
    exact hstore _ _ _ _ hq hk
  · intro toks q₁ p l ret k hq _ _ _ hk
    exact hstore _ _ _ _ hq hk
  · intro toks q₁ ret k hq _ _ hk
    exact hstore _ _ _ _ hq hk
  · intro toks q₁ expiry hq _ _
    exact hq

theorem tsfStep_ring
    (hstep : ∀ k c a k', I k → ringStep k c = .ok (a, k') → I k') (h : I q.kfifo)
    {c : TsfCall} {a : TsfAnswer} (heq : tsfStep K q c = .ok (a, q')) : I q'.kfifo := by
  have hstore : ∀ skb k ret k', I k → kfifoEnqueue (some skb) k = .ok (ret, k') → I k' :=
    fun _ _ _ _ hk he => hstep _ _ _ _ hk (ringStep_enqueue he)
  cases tsfStep_cases heq with
  | @bypass skb =>
    rcases tsfBypass_cases skb q with hb | ⟨ret, -, hb⟩
    · rw [hb]
      exact h
    · rw [hb]
      exact h
  | segments _ hseg => exact segment_ring hstore h hseg
  | plain _ _ hplain => exact plain_ring hstore h hplain
  | dequeue hcase =>
    cases hcase with
    | bypass => exact h
    | sent _ hk => exact hstep _ _ _ _ h (ringStep_dequeue hk)
    | nothing _ hk => exact hstep _ _ _ _ h (ringStep_dequeue hk)
    | @finished k w n _ hk howes =>
      have hfinish := hstep _ _ _ _ (hstep _ _ _ _ h (ringStep_dequeue hk)) (ringStep_finish k)
      rw [kfifoFinish_owes howes] at hfinish
      exact hfinish

end Ring

structure Working (K : Kernel) (q : Tsf) : Prop where
  ring : RingInv q.kfifo
  tokens : 0 ≤ q.buffer → 0 ≤ q.tokens
  past : q.tC ≤ q.now K

theorem TsfFresh.working (K : Kernel) (h : TsfFresh q) : Working K q := by
  refine ⟨h.ring.inv, fun _ => h.tokens.ge, ?_⟩
  rw [h.tC]
  exact K.ktime_nonneg.trans (K.ktime_mono (Nat.zero_le _))

theorem RingInv.of_step {k k' : Ring} (h : RingInv k) {c : RingCall} {a : RingAnswer}
    (heq : ringStep k c = .ok (a, k')) : RingInv k' := by
  obtain ⟨a', k₁, he, hk₁⟩ := h.step c
  rw [he] at heq
  obtain ⟨rfl, rfl⟩ := Prod.mk.inj (Except.ok.inj heq)
  exact hk₁

theorem TsfFresh.run (h : TsfFresh q₀) {l : TsfHistory} (run : Run (tsfStep K) q₀ l q) :
    Working K q := by
  have hw := h.working K
  have hring : RingInv q.kfifo := run.keeps (I := fun q => RingInv q.kfifo) h.ring.inv
    fun q c a q' hq _ heq => tsfStep_ring (fun k c a k' hk he => hk.of_step he) hq heq
  have m := Metered.run h.trace hw.past run
  refine ⟨hring, fun hdepth => ?_, m.past⟩
  rw [m.buffer] at hdepth
  exact (m.valid ⟨h.tokens.ge, h.tokens.trans_le hdepth⟩).nonneg

theorem Working.enqueueToks_nonneg (w : Working K q) (hdepth : 0 ≤ q.buffer) :
    0 ≤ enqueueToks q (q.now K) := by
  rw [enqueueToks_eq hdepth w.past, Bucket.level]
  have := w.tokens hdepth
  have := w.past
  change 0 ≤ min q.buffer (q.tokens + min (q.now K - q.tC) q.buffer)
  omega

theorem tsfPromoteAll_returns (h : RingInv q.kfifo) (hne : q.qdisc.skbs ≠ []) (toks : ℤ) :
    ∃ r, tsfPromoteAll now toks q = .ok r := by
  -- on the inner queue; the ring takes any packet without a fault
  induction hl : q.qdisc.skbs generalizing q toks with
  | nil => exact absurd hl hne
  | cons p l ih =>
    rcases lt_or_ge (peekToks q toks) 0 with hneg | hpos
    · exact ⟨_, tsfPromoteAll_stop hneg⟩
    · rw [peekToks_cons hl] at hpos
      obtain ⟨ret, k, hk, hk'⟩ := h.enqueue p
      rw [tsfPromoteAll_cons hl hpos, hk]
      cases ret with
      | success =>
        by_cases hempty : l = []
        · exact ⟨_, if_pos hempty⟩
        · obtain ⟨r, hr⟩ := ih (q := q.promoted now (toks - q.rate.l2tNs p.pktLen) p l k) hk' hempty
            (toks - q.rate.l2tNs p.pktLen) rfl
          exact ⟨r, (if_neg hempty).trans hr⟩
      | drop => exact ⟨_, rfl⟩
      | cn => exact ⟨_, rfl⟩

theorem tsfNew_returns (h : RingInv q.kfifo) (toks toks2 : ℤ) (preSkb : Option Skb) :
    ∃ r, tsfNew now skb toks toks2 preSkb q = .ok r := by
  by_cases hpos : 0 ≤ toks - q.rate.l2tNs skb.pktLen
  · obtain ⟨ret, k, hk, -⟩ := h.enqueue skb
    rw [tsfNew_ring hpos, hk]
    exact ⟨_, rfl⟩
  · exact ⟨_, tsfNew_park hpos⟩

theorem tsfPlain_returns (h : RingInv q.kfifo) (hne : q.qdisc.skbs ≠ []) (skb : Skb) :
    ∃ r, tsfPlain K skb q = .ok r := by
  have hbegin : RingInv (q.begin skb).kfifo := h
  obtain ⟨r, hr⟩ : ∃ r, tsfPromoteAll (q.now K) (enqueueToks q (q.now K)) (q.begin skb) = .ok r :=
    tsfPromoteAll_returns hbegin hne _
  rw [tsfPlain_eq, hr]
  have hend := tsfPromoteAll_rule (I := fun _ q => RingInv q.kfifo)
    (fun toks q p l k hq _ _ hk => hq.of_step (ringStep_enqueue hk)) hbegin hr
  rcases hend with ⟨toks', q₁, hq₁, -, rfl⟩ | ⟨_, _, _, _, _, _, -, -, -, -, -, rfl⟩
  · exact tsfNew_returns hq₁ _ _ _
  · exact ⟨_, rfl⟩

theorem tsfSegmentOne_returns (h : RingInv q.kfifo) (seg : Skb) :
    ∃ ret q', tsfSegmentOne K seg q = .ok (ret, q') ∧ RingInv q'.kfifo := by
  by_cases hpos : 0 ≤ segmentToks q (q.now K) seg
  · obtain ⟨ret, k, hk, hk'⟩ := h.enqueue (markSegment seg)
    rw [tsfSegmentOne_ring hpos, hk]
    exact ⟨_, _, rfl, hk'⟩
  · refine ⟨_, _, tsfSegmentOne_park hpos, ?_⟩
    have hkfifo := tsfPark_kfifo (markSegment seg) q.tick
    exact hkfifo ▸ h

theorem tsfSegmentLoop_returns (h : RingInv q.kfifo) (segs : List Skb) (nb : ℕ) :
    ∃ r, tsfSegmentLoop K segs nb q = .ok r := by
  induction segs generalizing nb q with
  | nil => exact ⟨_, rfl⟩
  | cons seg segs ih =>
    obtain ⟨ret, q', hone, hq'⟩ := tsfSegmentOne_returns (K := K) h seg
    simp only [tsfSegmentLoop, hone]
    exact ih hq' _

theorem tsfSegment_returns (h : RingInv q.kfifo) (skb : Skb) :
    ∃ r, tsfSegment K skb q = .ok r := by
  by_cases hnil : K.skbGsoSegment skb = []
  · exact ⟨_, tsfSegment_nil hnil⟩
  · obtain ⟨r, hr⟩ := tsfSegmentLoop_returns (K := K) (q := q.beginSegments (K.skbGsoSegment skb)) h
      (K.skbGsoSegment skb) 0
    rw [tsfSegment_cons hnil, hr]
    exact ⟨_, rfl⟩

theorem tsfPlain_shallow (h : RingInv q.kfifo) (hempty : q.qdisc.skbs = []) (hdepth : q.buffer < 0)
    (skb : Skb) : ∃ r, tsfPlain K skb q = .ok r := by
  have hneg : enqueueToks q (q.now K) < 0 := (capTokens_le _ _).trans_lt hdepth
  have hpeek : peekToks (q.begin skb) (enqueueToks q (q.now K)) = enqueueToks q (q.now K) := by
    have hbegin : (q.begin skb).qdisc.skbs = [] := hempty
    rw [peekToks, hbegin, List.head?_nil]
  rw [tsfPlain_eq, tsfPromoteAll_stop (hpeek.trans_lt hneg)]
  exact tsfNew_returns (q := q.begin skb) h _ _ _

/-- On a working scheduler the loop takes a packet from an empty inner queue whenever that
is empty and the depth is not negative. -/
theorem Working.null_iff (w : Working K q) (hd : skb.daddr = deip) :
    tsfEnqueue K skb q = .error .nullSkb ↔
      ¬(Segments K skb q ∨ q.qdisc.skbs ≠ [] ∨ q.buffer < 0) := by
  by_cases hs : Segments K skb q
  case pos =>
    obtain ⟨r, hr⟩ := tsfSegment_returns (K := K) w.ring skb
    rw [tsfEnqueue_segment hd hs, hr]
    simp [hs]
  rw [tsfEnqueue_plain hd hs]
  by_cases hempty : q.qdisc.skbs = []
  case neg =>
    obtain ⟨r, hr⟩ := tsfPlain_returns (K := K) w.ring hempty skb
    rw [hr]
    simp [hempty]
  rcases lt_or_ge q.buffer 0 with hdepth | hdepth
  · obtain ⟨r, hr⟩ := tsfPlain_shallow (K := K) w.ring hempty hdepth skb
    rw [hr]
    simp [hdepth]
  · have hnull : tsfPromoteAll (q.now K) (enqueueToks q (q.now K)) (q.begin skb) =
        .error .nullSkb := tsfPromoteAll_null hempty (w.enqueueToks_nonneg hdepth)
    rw [tsfPlain_eq, hnull]
    simp [hs, hempty, hdepth]

/-- In every state that a run of a configured scheduler reaches, `tsf_enqueue` gives the ring
no NULL packet exactly when the packet is segmented, another one is parked, or the depth of the
bucket is negative, which it is where `rate64 / HZ` does not fit in an `s64`. -/
theorem no_null_packet_iff {opt : Option TsfEnv} (hinit : tsfInit K opt = (0, q₀))
    {h : TsfHistory} (run : Run (tsfStep K) q₀ h q) (hd : skb.daddr = deip) :
    tsfEnqueue K skb q ≠ .error .nullSkb ↔ Segments K skb q ∨ q.qdisc.skbs ≠ [] ∨ q.buffer < 0 := by
  have w : Working K q := (tsfInit_fresh hinit).run run
  rw [ne_eq, w.null_iff hd, not_not]

theorem no_null_packet_iff_sample :
    ∃ q : Tsf, q.qdisc.skbs = [skbSample 1 1400] ∧
      (tsfEnqueue (kernelSample 3 [skbSample 1 1400]) (skbSample 2 100) q ≠ .error .nullSkb ↔
        Segments (kernelSample 3 [skbSample 1 1400]) (skbSample 2 100) q ∨ q.qdisc.skbs ≠ [] ∨
          q.buffer < 0) := by
  obtain ⟨h, q, run, hq⟩ := exists_run_of_exec (fun q : Tsf => q.qdisc.skbs)
    (b := [skbSample 1 1400])
    (show (exec (tsfStep (kernelSample 3 [skbSample 1 1400]))
      (tsfSample (kernelSample 3 [skbSample 1 1400]) 1000000000)
      [.enqueue (skbSample 9 2800)]).toOption.map _ = _ by decide +kernel)
  exact ⟨q, hq, no_null_packet_iff (tsfSample_init _ _) run rfl⟩

/-- The first packet to the limited address meets an empty inner queue. -/
theorem first_packet_null :
    tsfInit (kernelSample 3 []) (some (envSample 1000000000)) =
        (0, tsfSample (kernelSample 3 []) 1000000000) ∧
      (skbSample 1 100).daddr = deip ∧
      tsfEnqueue (kernelSample 3 []) (skbSample 1 100) (tsfSample (kernelSample 3 []) 1000000000) =
        .error .nullSkb := by
  have hinit := tsfSample_init (kernelSample 3 []) 1000000000
  have w := (tsfInit_fresh hinit).working (kernelSample 3 [])
  exact ⟨hinit, rfl, (w.null_iff rfl).mpr (by decide +kernel)⟩

end MeasurementLimiter
