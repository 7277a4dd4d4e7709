import MeasurementLimiter.RateNstream

namespace MeasurementLimiter.MeasureRate

open Runs Sequences

variable {I : IntRange} {interval : ℤ} {s : Streams}

/-- In every run of the two programs the arrays hold for each pair of ports what a meter of
its own holds that sees only its packets and the ticks. -/
theorem streams_separate (I : IntRange) (interval : ℤ) (ports : ℕ × ℕ) :
    (∀ h s, Run (countBurst I interval) Streams.new h s →
      s.meter ports = meterOf interval Nat.cast ports (h.map Prod.fst)) ∧
    ∀ h s, Run (nstream I interval) Streams.new h s →
      s.meter ports = meterOf interval nstreamCounted ports (h.map Prod.fst) :=
  ⟨fun _ _ run => ((countBurst_counts I interval).separate run).meter ports,
    fun _ _ run => ((nstream_counts I interval).separate run).meter ports⟩

def apartSample : List StreamCall :=
  [.packet (streamFrame 72 10#8 1#16), .tick, .packet (streamFrame 22 10#8 2#16),
    .packet (streamFrame 47 10#8 1#16), .tick, .tick]

theorem streams_separate_sample :
    (∃ h s, Run (countBurst .int32 1000) Streams.new h s ∧
      s.meter (2, 80) = some (0, [1 / 2500, 0])) ∧
    ∃ h s, Run (nstream .int32 1000) Streams.new h s ∧
      s.meter (2, 80) = some (0, [22 / 125000, 0]) := by
  have hall := streams_separate .int32 1000 (2, 80)
  constructor
  · obtain ⟨h, s, run, hcalls⟩ := exists_run_of_isOk
      (by decide +kernel : (exec (countBurst .int32 1000) Streams.new apartSample).isOk)
    refine ⟨h, s, run, ?_⟩
    rw [hall.1 h s run, hcalls]
    decide +kernel
  · obtain ⟨h, s, run, hcalls⟩ := exists_run_of_isOk
      (by decide +kernel : (exec (nstream .int32 1000) Streams.new apartSample).isOk)
    refine ⟨h, s, run, ?_⟩
    rw [hall.2 h s run, hcalls]
    decide +kernel

/-- A tick of `nstream` prints a line for each stream in the order of their first packets, with
the smoothed rates of the meter of the stream, whatever the other streams sent. -/
theorem printed_separately {h : List (StreamCall × List StreamLine)} {lines : List StreamLine}
    (run : Run (nstream I interval) Streams.new (h ++ [(.tick, lines)]) s) :
    lines.length = (portOrder (h.map Prod.fst)).length ∧
      ∀ (i : ℕ) (ports : ℕ × ℕ), (portOrder (h.map Prod.fst))[i]? = some ports → ∃ q smooth,
        meterOf interval nstreamCounted ports (h.map Prod.fst ++ [.tick]) = some (0, q) ∧
          getRatio q = .ok smooth ∧ lines[i]? = some (.stream (i + 1) smooth) := by
  obtain ⟨s₀, before, -, hs⟩ := run.last
  have hI := (nstream_counts I interval).separate before
  obtain ⟨lines', s', heq, hsampled, hlen, hprinted⟩ := nstreamLoop_ok interval s₀ hI.room
  obtain ⟨rfl, rfl⟩ := Prod.mk.inj (Except.ok.inj (heq.symm.trans hs))
  have hafter := hI.tick hsampled
  refine ⟨hlen.trans hI.order.streamId, fun i ports hi => ?_⟩
  obtain ⟨hlt, rfl⟩ := List.getElem?_eq_some_iff.mp hi
  have hplace : s'.mp (portOrder (h.map Prod.fst))[i] = i + 1 := by
    rw [hsampled.mp, hI.order.mp, if_pos (List.getElem_mem hlt), (nodup_portOrder _).idxOf_getElem]
  obtain ⟨smooth, hsmooth, hline⟩ := hprinted i (by rw [hI.order.streamId]; exact hlt)
  refine ⟨s'.q (i + 1), smooth, ?_, hsmooth, hline⟩
  have hzero : s'.totIppktLen (i + 1) = 0 := by
    rw [hsampled.totIppktLen, if_pos]
    rw [Finset.mem_Icc, hI.order.streamId]
    omega
  rw [← hafter.meter, Streams.meter, hplace, if_neg (Nat.succ_ne_zero i), hzero]

theorem printed_separately_sample :
    ∃ h lines s, Run (nstream .int32 1000) Streams.new (h ++ [(.tick, lines)]) s ∧
      lines.length = 2 ∧ lines[1]? = some (.stream 2 (11 / 125000)) := by
  obtain ⟨r, hr, hout⟩ := exists_ok _
    (by decide +kernel : (exec (nstream .int32 1000) Streams.new apartSample).toOption.map
      (fun r => r.1) = some (apartSample.dropLast.zip [[], [.stream 1 (72 / 125000)], [], [],
        [.stream 1 (119 / 250000), .stream 2 (22 / 125000)]] ++
        [(.tick, [.stream 1 (119 / 375000), .stream 2 (11 / 125000)])]))
  have run := run_of_exec hr
  rw [hout] at run
  obtain ⟨hlen, hprinted⟩ := printed_separately run
  obtain ⟨q, smooth, hmeter, hsmooth, hline⟩ := hprinted 1 (2, 80) (by decide +kernel)
  obtain ⟨-, rfl⟩ := Prod.mk.inj (Option.some.inj (hmeter.symm.trans
    (by decide +kernel : _ = some ((0 : ℤ), [(22 / 125000 : ℚ), 0]))))
  have hmean : getRatio [22 / 125000, 0] = .ok (11 / 125000) := by decide +kernel
  obtain rfl := Except.ok.inj (hsmooth.symm.trans hmean)
  exact ⟨_, _, r.2, run, hlen.trans (by decide +kernel), hline⟩

end MeasurementLimiter.MeasureRate
