import MeasurementLimiter.TsfInit

namespace MeasurementLimiter

variable {M U : Type} [Kunit M U] {K : Kernel} {env : TsfEnv} {q q' : Tsf} {parms time rate64 : ℕ}

/-- The ring has the bytes and the nodes that `tsf_change` configured. -/
structure SameCapacity (q : Tsf) : Prop where
  bytes : q.kfifo.totalLen = q.tlen
  nodes : q.kfifo.totalTime = q.ttime

theorem kfifoInit_capacity {mem : Option (ℕ → Knode U)} {number rate : ℕ} {k k' : Kfifo M U} {err : ℤ}
    (herr : 0 ≤ err) (h : kfifoInit mem number rate k = (err, k')) :
    k'.totalLen = number * rate % 2 ^ 32 / 1000 ∧ k'.totalTime = number := by
  cases mem with
  | none =>
    obtain ⟨rfl, -⟩ := Prod.mk.inj h
    exact absurd herr (by decide)
  | some fifo =>
    simp only [kfifoInit] at h
    split_ifs at h
    · rw [← (Prod.mk.inj h).2]
      exact ⟨rfl, rfl⟩
    · rw [← (Prod.mk.inj h).2]
      exact ⟨rfl, rfl⟩

theorem tsfChange_capacity (hattrs : env.attrs = .ok ⟨some parms, some time, some rate64⟩)
    (h : tsfChange K env q = (0, q')) :
    q'.kfifo.totalLen = time / 1000 * rate64 % 2 ^ 32 / 1000 ∧
      q'.kfifo.totalTime = time / 1000 % 2 ^ 32 := by
  obtain ⟨parms', time', rate', testQdisc, q₁, qdisc, q₂, hattrs', h₁, h₂, h₃⟩ := tsfChange_ok h
  obtain ⟨rfl, rfl, rfl⟩ : parms' = parms ∧ time' = time ∧ rate' = rate64 := by
    rw [hattrs] at hattrs'
    simpa [eq_comm] using hattrs'
  obtain ⟨n, b, d, p, p', rfl⟩ := tsfNewChild_keeps h₁
  obtain ⟨m, c, e, r, r', rfl⟩ := tsfNewChild_keeps h₂
  unfold tsfMakeRing at h₃
  dsimp only at h₃
  cases hk : kfifoInit env.mem ((tsfSet K parms' time' rate' q).ttime % 2 ^ 32) (rate' % 2 ^ 32)
      (tsfSet K parms' time' rate' q).kfifo with
  | mk err k =>
    simp only [hk] at h₃
    obtain ⟨herr, rfl⟩ := Prod.mk.inj h₃
    split_ifs at herr with hneg
    · omega
    · obtain ⟨hlen, htime⟩ := kfifoInit_capacity (not_lt.mp hneg) hk
      refine ⟨?_, htime⟩
      rw [Nat.mul_mod]
      exact hlen

theorem mod_div_eq_iff {x w d : ℕ} (hd : 0 < d) (hdw : d ≤ w) : x % w / d = x / d ↔ x < w := by
  constructor
  · intro h
    by_contra hle
    have hsum : x % w + w ≤ x := by
      have hquot : 1 ≤ x / w := Nat.div_pos (not_lt.mp hle) (hd.trans_le hdw)
      have hmul : w * 1 ≤ w * (x / w) := Nat.mul_le_mul_left w hquot
      have := Nat.mod_add_div x w
      omega
    have hstep : (x % w + d) / d ≤ x / d := Nat.div_le_div_right (by omega)
    rw [Nat.add_div_right _ hd, h] at hstep
    exact absurd hstep (by omega)
  · intro h
    rw [Nat.mod_eq_of_lt h]

/-- The number of bytes that `tsf_change` computes is exact below `2 ^ 64`, and the ring has
that capacity, and a node for each millisecond, exactly when the time and its product with
the rate are below `2 ^ 32`. -/
theorem same_capacity_iff (hattrs : env.attrs = .ok ⟨some parms, some time, some rate64⟩)
    (h : tsfChange K env q = (0, q')) (hfits : time / 1000 * rate64 < 2 ^ 64) :
    q'.ttime = time / 1000 ∧ q'.tlen = rate64 * q'.ttime / 1000 ∧
      (SameCapacity q' ↔ time / 1000 < 2 ^ 32 ∧ time / 1000 * rate64 < 2 ^ 32) := by
  obtain ⟨hlen, hnodes⟩ := tsfChange_capacity hattrs h
  have c := tsfChange_configured_of hattrs h
  have htlen : q'.tlen = time / 1000 * rate64 / 1000 := by
    rw [c.tlen, Nat.mul_comm rate64, Nat.mod_eq_of_lt hfits]
  refine ⟨c.ttime, ?_, ?_⟩
  · rw [htlen, c.ttime, Nat.mul_comm rate64]
  · have hbytes : q'.kfifo.totalLen = q'.tlen ↔ time / 1000 * rate64 < 2 ^ 32 := by
      rw [hlen, htlen]
      exact mod_div_eq_iff (by norm_num) (by norm_num)
    have htime : q'.kfifo.totalTime = q'.ttime ↔ time / 1000 < 2 ^ 32 := by
      rw [hnodes, c.ttime]
      exact Nat.mod_eq_iff_lt (by norm_num)
    rw [← hbytes, ← htime]
    exact ⟨fun s => ⟨s.nodes, s.bytes⟩, fun s => ⟨s.2, s.1⟩⟩

theorem same_capacity_iff_sample : SameCapacity (tsfSample (kernelSample 3 []) 100000000) := by
  have haccepted : tsfChange (kernelSample 3 []) (envSample 100000000)
      (tsfZero (kernelSample 3 [])) =
      (0, tsfSample (kernelSample 3 []) 100000000) := tsfSample_init (kernelSample 3 []) 100000000
  exact (same_capacity_iff rfl haccepted (by decide)).2.2.mpr ⟨by decide, by decide⟩

/-- Of the 8000000 bytes of eight milliseconds of a gigabyte for each second the ring gets
3705032. -/
theorem capacity_wraps :
    tsfInit (kernelSample 3 []) (some (envSample 1000000000)) =
        (0, tsfSample (kernelSample 3 []) 1000000000) ∧
      8000 / 1000 * 1000000000 < 2 ^ 64 ∧
      (tsfSample (kernelSample 3 []) 1000000000).tlen = 8000000 ∧
      (tsfSample (kernelSample 3 []) 1000000000).kfifo.totalLen = 3705032 ∧
      ¬SameCapacity (tsfSample (kernelSample 3 []) 1000000000) := by
  have htlen : (tsfSample (kernelSample 3 []) 1000000000).tlen = 8000000 := by decide +kernel
  have hlen : (tsfSample (kernelSample 3 []) 1000000000).kfifo.totalLen = 3705032 := by
    decide +kernel
  refine ⟨tsfSample_init _ _, by decide, htlen, hlen, fun s => ?_⟩
  have := s.bytes
  rw [htlen, hlen] at this
  exact absurd this (by decide)

end MeasurementLimiter
