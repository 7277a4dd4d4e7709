import MeasurementLimiter.TsfInit

namespace MeasurementLimiter

/-- `struct tc_tsf_qopt`: the 32-bit rate of its `tc_ratespec`, and the time. -/
structure TcTsfQopt where
  rate : ℕ
  time : ℕ
  deriving DecidableEq

/-- The message has room for the nest, for `TCA_TSF_PARMS` and for `TCA_TSF_RATE64`. -/
structure NlaRoom where
  nest : Bool
  parms : Bool
  rate64 : Bool

/-- The attributes that `tsf_dump` writes. -/
structure TsfDumped where
  parms : TcTsfQopt
  rate64 : Option ℕ
  deriving DecidableEq

def pschedNs2Ticks (x : ℕ) : ℕ := x >>> 6

/-- `tsf_dump`, with `psched_ratecfg_getrate` of the kernel. -/
def tsfDump (pschedRatecfgGetrate : PschedRatecfg → ℕ) (room : NlaRoom) (q : Tsf) :
    Except ℤ TsfDumped :=
  if room.nest then
    let opt : TcTsfQopt := ⟨pschedRatecfgGetrate q.kfifo.rate, pschedNs2Ticks q.ttime⟩
    if room.parms then
      if 2 ^ 32 ≤ q.kfifo.rate.rateBytesPs then
        if room.rate64 then .ok ⟨opt, some q.kfifo.rate.rateBytesPs⟩ else .error (-1)
      else .ok ⟨opt, none⟩
    else .error (-1)
  else .error (-1)

/-- What `nla_parse_nested_deprecated` finds in them. -/
def TsfDumped.attrs (d : TsfDumped) : TsfAttrs := ⟨some d.parms.rate, none, d.rate64⟩

/-- The settings that the attributes make. -/
structure SameSettings (q q' : Tsf) : Prop where
  ttime : q'.ttime = q.ttime
  rate : q'.rate = q.rate
  tlen : q'.tlen = q.tlen
  buffer : q'.buffer = q.buffer
  limit : q'.limit = q.limit

/-- The configuration `env` of `q₀` is accepted and makes the settings of `q`. -/
def Restores (K : Kernel) (env : TsfEnv) (q₀ q : Tsf) : Prop :=
  ∃ q', tsfChange K env q₀ = (0, q') ∧ SameSettings q q'

variable {K : Kernel} {env env' : TsfEnv} {q q₀ : Tsf} {room : NlaRoom} {d : TsfDumped}
  {pschedRatecfgGetrate : PschedRatecfg → ℕ}

theorem tsfDump_ok (h : tsfDump pschedRatecfgGetrate room q = .ok d) :
    d = ⟨⟨pschedRatecfgGetrate q.kfifo.rate, pschedNs2Ticks q.ttime⟩,
      if 2 ^ 32 ≤ q.kfifo.rate.rateBytesPs then some q.kfifo.rate.rateBytesPs else none⟩ := by
  unfold tsfDump at h
  split_ifs at h with hnest hparms hlarge hrate64
  · rw [if_pos hlarge]
    exact (Except.ok.inj h).symm
  · rw [if_neg hlarge]
    exact (Except.ok.inj h).symm

theorem tsfChange_timeless (K : Kernel) (q₀ : Tsf) (h : env.attrs = .ok d.attrs) :
    tsfChange K env q₀ = (einval, q₀) := by
  unfold tsfChange
  rw [h]
  rfl

/-- What `tsf_dump` reports of an accepted configuration has the rate as the kernel gives it
back, the time in units of 64 milliseconds, and the 64-bit rate only from `2 ^ 32` on.  Given
back to `tsf_change` it is refused, so it restores no configuration. -/
theorem dumped_never_restores {q' : Tsf} (h : tsfChange K env q = (0, q'))
    (hdump : tsfDump pschedRatecfgGetrate room q' = .ok d) (hattrs : env'.attrs = .ok d.attrs)
    (q₀ : Tsf) :
    (∃ parms time rate64, env.attrs = .ok ⟨some parms, some time, some rate64⟩ ∧
      let rate := K.pschedRatecfgPrecompute parms rate64
      d = ⟨⟨pschedRatecfgGetrate rate, pschedNs2Ticks (time / 1000)⟩,
        if 2 ^ 32 ≤ rate.rateBytesPs then some rate.rateBytesPs else none⟩) ∧
    tsfChange K env' q₀ = (einval, q₀) ∧ ¬Restores K env' q₀ q' := by
  have hrefused := tsfChange_timeless K q₀ hattrs
  obtain ⟨parms, time, rate64, hgiven, c⟩ := tsfChange_configured h
  refine ⟨⟨parms, time, rate64, hgiven, ?_⟩, hrefused, ?_⟩
  · have hd := tsfDump_ok hdump
    rwa [c.kfifoRate, c.ttime] at hd
  · rintro ⟨q₁, haccepted, -⟩
    rw [hrefused] at haccepted
    exact absurd (Prod.mk.inj haccepted).1 (by decide)

/-- The environment of a configuration with the attributes `attrs`. -/
def envGiven (attrs : TsfAttrs) : TsfEnv where
  attrs := .ok attrs
  child := none
  childJob := none
  mem := some fun _ => ⟨0, 0, 0, 0, none, none, []⟩
  attrs_neg := nofun
  child_neg := none_neg
  childJob_neg := none_neg

/-- Eight milliseconds of a gigabyte for each second are reported as no time, and without the
64-bit rate. -/
theorem dumped_refused :
    tsfInit (kernelSample 3 []) (some (envSample 1000000000)) =
        (0, tsfSample (kernelSample 3 []) 1000000000) ∧
      tsfDump PschedRatecfg.rateBytesPs ⟨true, true, true⟩
        (tsfSample (kernelSample 3 []) 1000000000) = .ok ⟨⟨1000000000, 0⟩, none⟩ ∧
      tsfInit (kernelSample 3 []) (some (envGiven (TsfDumped.attrs ⟨⟨1000000000, 0⟩, none⟩))) =
        (einval, tsfZero (kernelSample 3 [])) ∧
      ¬Restores (kernelSample 3 []) (envGiven (TsfDumped.attrs ⟨⟨1000000000, 0⟩, none⟩))
        (tsfZero (kernelSample 3 [])) (tsfSample (kernelSample 3 []) 1000000000) := by
  refine ⟨tsfSample_init _ _, rfl, rfl, ?_⟩
  rintro ⟨q', haccepted, -⟩
  have hrefused : tsfChange (kernelSample 3 [])
      (envGiven (TsfDumped.attrs ⟨⟨1000000000, 0⟩, none⟩)) (tsfZero (kernelSample 3 [])) =
        (einval, tsfZero (kernelSample 3 [])) := rfl
  rw [hrefused] at haccepted
  exact absurd (Prod.mk.inj haccepted).1 (by decide)

theorem dumped_never_restores_sample :
    ¬Restores (kernelSample 3 [])
      (envGiven (TsfDumped.attrs ⟨⟨4294967295, 0⟩, some 10000000000⟩)) (tsfZero (kernelSample 3 []))
      (tsfSample (kernelSample 3 []) 10000000000) := by
  have haccepted : tsfChange (kernelSample 3 []) (envSample 10000000000)
      (tsfZero (kernelSample 3 [])) = (0, tsfSample (kernelSample 3 []) 10000000000) :=
    tsfSample_init (kernelSample 3 []) 10000000000
  have hdump : tsfDump (fun rate => min rate.rateBytesPs 4294967295) ⟨true, true, true⟩
      (tsfSample (kernelSample 3 []) 10000000000) = .ok ⟨⟨4294967295, 0⟩, some 10000000000⟩ := rfl
  exact (dumped_never_restores haccepted hdump rfl (tsfZero (kernelSample 3 []))).2.2

end MeasurementLimiter
