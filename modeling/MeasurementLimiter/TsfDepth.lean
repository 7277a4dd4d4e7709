import MeasurementLimiter.TsfTokens

namespace MeasurementLimiter

open TokenBucket

variable {K : Kernel} {env : TsfEnv} {q q' : Tsf} {parms time rate64 len : ℕ}

def Tsf.PaysLater (q : Tsf) (len : ℕ) : Prop :=
  ∃ t, ∀ now, t ≤ now → 0 ≤ enqueueToks q now - q.rate.l2tNs len

theorem paysLater_iff (htokens : 0 ≤ q.tokens) (hbuffer : 0 ≤ q.buffer) :
    q.PaysLater len ↔ (q.rate.l2tNs len : ℤ) ≤ q.buffer := by
  constructor
  · rintro ⟨t, ht⟩
    have hpays := ht t le_rfl
    have hcap : enqueueToks q t ≤ q.buffer := by
      rw [enqueueToks, capTokens_eq]
      exact min_le_left _ _
    omega
  · intro hle
    refine ⟨q.tC + q.buffer, fun now hnow => ?_⟩
    have hfull : q.bucket.level q.buffer now = q.buffer := by
      have hgain : min (now - q.tC) q.buffer = q.buffer := by omega
      change min q.buffer (q.tokens + min (now - q.tC) q.buffer) = q.buffer
      omega
    rw [enqueueToks_eq hbuffer (by omega), hfull]
    omega

def Tsf.AdmitsMtu (q : Tsf) : Prop :=
  ∀ len ≤ q.kfifo.mtu, (q.rate.l2tNs len : ℤ) ≤ q.buffer ∧
    ∀ s : Tsf, s.rate = q.rate → s.buffer = q.buffer → 0 ≤ s.tokens → s.PaysLater len

theorem admitsMtu_iff (hbuffer : 0 ≤ q.buffer) (hmono : Monotone q.rate.l2tNs) :
    q.AdmitsMtu ↔ (q.rate.l2tNs q.kfifo.mtu : ℤ) ≤ q.buffer := by
  constructor
  · exact fun h => (h _ le_rfl).1
  · intro h len hlen
    have hle : (q.rate.l2tNs len : ℤ) ≤ q.buffer :=
      (Int.ofNat_le.mpr (hmono hlen)).trans h
    refine ⟨hle, fun s hrate hdepth htokens => ?_⟩
    rw [paysLater_iff htokens (hdepth ▸ hbuffer), hrate, hdepth]
    exact hle

/-- An accepted configuration admits every packet of the device exactly when `rate64 / HZ` fits in
the `s64` of the depth and the time of the longest packet, `mtu * 10^9 / rate64` rounded in any
monotone way, is at most that. -/
theorem depth_suffices_iff {round : ℚ → ℕ} (hround : Monotone round)
    (hl2t : ∀ parms rate64, 1 ≤ rate64 → ∀ len,
      (K.pschedRatecfgPrecompute parms rate64).l2tNs len = round (len * 10 ^ 9 / rate64))
    (hattrs : env.attrs = .ok ⟨some parms, some time, some rate64⟩) (hrate : 1 ≤ rate64)
    (hu64 : rate64 < 2 ^ 64) (h : tsfChange K env q = (0, q')) :
    q'.AdmitsMtu ↔ rate64 / K.hz < 2 ^ 63 ∧
      round ((min K.devMtu ipMaxMtu : ℕ) * 10 ^ 9 / rate64) ≤ rate64 / K.hz := by
  have c := tsfChange_configured_of hattrs h
  have htime : ∀ len, q'.rate.l2tNs len = round (len * 10 ^ 9 / rate64) := by
    rw [c.rate]
    exact hl2t parms rate64 hrate
  have hmono : Monotone q'.rate.l2tNs := by
    intro a b hab
    rw [htime, htime]
    exact hround (by gcongr)
  have hdepth := wrapInt64_nonneg_iff ((Nat.div_le_self rate64 K.hz).trans_lt hu64)
  rw [← c.buffer] at hdepth
  by_cases hfits : rate64 / K.hz < 2 ^ 63
  · rw [admitsMtu_iff (hdepth.mpr hfits) hmono, htime, c.buffer, c.mtu, wrapInt64_of_lt hfits,
      and_iff_right hfits]
    exact Int.ofNat_le
  · refine iff_of_false (fun hadmits => hfits (hdepth.mp ?_)) fun h => hfits h.1
    exact (Int.natCast_nonneg _).trans (hadmits _ le_rfl).1

/-- Rounded down, the product of the rate and the bytes of a tick must exceed that of the
packet and a second. -/
theorem floor_depth_iff {mtu hz : ℕ} (hrate : 1 ≤ rate64) :
    ⌊((mtu : ℚ) * 10 ^ 9 / rate64)⌋₊ ≤ rate64 / hz ↔ mtu * 10 ^ 9 < (rate64 / hz + 1) * rate64 := by
  have hfloor : ⌊((mtu : ℚ) * 10 ^ 9 / rate64)⌋₊ = mtu * 10 ^ 9 / rate64 := by
    rw [← Nat.floor_div_eq_div (K := ℚ)]
    push_cast
    rfl
  rw [hfloor, ← Nat.lt_succ_iff, Nat.div_lt_iff_lt_mul hrate]

theorem kernelSample_l2t (late : ℕ) (segs : List Skb) (parms rate64 len : ℕ) :
    ((kernelSample late segs).pschedRatecfgPrecompute parms rate64).l2tNs len =
      ⌊((len : ℚ) * 10 ^ 9 / rate64)⌋₊ := by
  rw [← Nat.cast_ofNat, ← Nat.cast_pow, ← Nat.cast_mul, Nat.floor_div_eq_div]
  rfl

theorem depth_suffices_iff_sample : (tsfSample (kernelSample 3 []) 1000000000).AdmitsMtu := by
  have haccepted : tsfChange (kernelSample 3 []) (envSample 1000000000)
      (tsfZero (kernelSample 3 [])) =
      (0, tsfSample (kernelSample 3 []) 1000000000) := tsfSample_init (kernelSample 3 []) 1000000000
  refine (depth_suffices_iff Nat.floor_mono
    (fun parms rate64 _ len => kernelSample_l2t 3 [] parms rate64 len)
    rfl (by decide) (by decide) haccepted).mpr ⟨by decide, ?_⟩
  exact (floor_depth_iff (by decide)).mpr (by decide)

/-- At a megabyte for each second it takes 1500000, and the bucket holds 10000. -/
theorem depth_too_small :
    tsfInit (kernelSample 3 []) (some (envSample 1000000)) =
        (0, tsfSample (kernelSample 3 []) 1000000) ∧
      (tsfSample (kernelSample 3 []) 1000000).kfifo.mtu = 1500 ∧
      (tsfSample (kernelSample 3 []) 1000000).rate.l2tNs 1500 = 1500000 ∧
      (tsfSample (kernelSample 3 []) 1000000).buffer = 10000 ∧
      ¬(tsfSample (kernelSample 3 []) 1000000).AdmitsMtu := by
  have hmtu : (tsfSample (kernelSample 3 []) 1000000).kfifo.mtu = 1500 := by decide +kernel
  have htime : (tsfSample (kernelSample 3 []) 1000000).rate.l2tNs 1500 = 1500000 := by
    decide +kernel
  have hdepth : (tsfSample (kernelSample 3 []) 1000000).buffer = 10000 := by decide +kernel
  refine ⟨tsfSample_init _ _, hmtu, htime, hdepth, fun h => ?_⟩
  have hpays := (h 1500 hmtu.ge).1
  rw [htime, hdepth] at hpays
  exact absurd hpays (by decide)

end MeasurementLimiter
