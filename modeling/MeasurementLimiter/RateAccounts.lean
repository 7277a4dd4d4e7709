import MeasurementLimiter.RateCounts

namespace MeasurementLimiter.MeasureRate

open Runs Sequences
open FiveTuple (Frame Ipv4Frame)

variable {I : IntRange} {interval : ℤ} {counted : ℕ → ℤ} {s s' : Streams} {f : Frame}
  {e : (ℕ × ℕ) × ℕ} {n : ℕ} {l : List StreamCall} {ports : ℕ × ℕ} {lines : List Line}
  {seen : List (ℕ × ℕ)}

theorem handleStream_lines (hs : handleStream I counted s f = .ok (lines, s')) :
    ∃ e, streamHeader f = .ok (lines, e) := by
  unfold handleStream at hs
  cases hf : streamHeader f with
  | error e => simp [hf] at hs
  | ok r =>
    obtain ⟨lines', e⟩ := r
    cases e with
    | none =>
      simp only [hf, Except.ok.injEq, Prod.mk.injEq] at hs
      exact ⟨none, by rw [hs.1]⟩
    | some e =>
      simp only [hf] at hs
      split_ifs at hs with hid
      simp only [bind_eq_ok] at hs
      obtain ⟨_, -, _, -, hs⟩ := hs
      exact ⟨some e, by rw [(Prod.mk.inj (Except.ok.inj hs)).1]⟩

theorem mem_portOrder : ports ∈ portOrder l ↔ ports ∈ seenPorts (packetsOf l) := by
  rw [portOrder, mem_firstSeen, seenPorts, List.mem_toFinset]

theorem Separate.queue (h : Separate interval counted s l)
    (hmem : ports ∈ seenPorts (packetsOf l)) :
    s.q (s.mp ports) = lastRates queueSize (streamRates interval counted ports l) := by
  have hmp : s.mp ports ≠ 0 := h.order.mp_ne_zero_iff.mpr (mem_portOrder.mpr hmem)
  have hmeter := h.meter ports
  rw [meterOf_eq, if_pos hmem, Streams.meter, if_neg hmp] at hmeter
  exact congrArg Prod.snd (Option.some.inj hmeter)

end MeasurementLimiter.MeasureRate
