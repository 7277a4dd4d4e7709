import MeasurementLimiter.RateAccounts
import MeasurementLimiter.BurstTotals

namespace MeasurementLimiter.MeasureRate

open Runs Sequences BurstTotals
open FiveTuple (Frame)

def ipBytes (ps : List Frame) : ℕ := ((handled ps).map Prod.snd).sum

def bursts (l : List StreamCall) : List (List Frame) :=
  (((intervalsOf l).1.splitOnP fun ps => ipBytes ps == 0).filter (· ≠ [])).map List.flatten

def Silent (f : Frame) : Prop := ∀ r, streamHeader f = .ok r → r.1 = []

def Quiet (l : List StreamCall) : Prop := ∀ f ∈ packetsOf l, Silent f

instance (f : Frame) : Decidable (Silent f) :=
  decidable_of_iff (∀ r ∈ (streamHeader f).toOption, r.1 = []) (by
    unfold Silent
    cases streamHeader f <;> simp [Except.toOption])

instance (l : List StreamCall) : Decidable (Quiet l) :=
  inferInstanceAs (Decidable (∀ f ∈ packetsOf l, _))

variable {I : IntRange} {interval : ℤ} {s s' : Streams} {l : List StreamCall}
  {h : List (StreamCall × List Line)}

@[simp] theorem ipBytes_append (ps ps' : List Frame) :
    ipBytes (ps ++ ps') = ipBytes ps + ipBytes ps' := by
  simp [ipBytes, handled_append]

theorem handledBytes_eq (ps : List Frame) : handledBytes Nat.cast ps = ipBytes ps := by
  rw [handledBytes, ipBytes, Nat.cast_list_sum, List.map_map]
  rfl

theorem ipBytes_flatten (I : List (List Frame)) : ipBytes I.flatten = (I.map ipBytes).sum := by
  induction I with
  | nil => rfl
  | cons ps I ih => simp [ih]

theorem burstTotals_intervals (l : List StreamCall) :
    burstTotals ((intervalsOf l).1.map ipBytes) = (bursts l).map ipBytes := by
  rw [burstTotals, pieces_map, bursts, List.map_map, List.map_map]
  apply List.map_congr_left
  intro I _
  exact (ipBytes_flatten I).symm

theorem sum_bursts (l : List StreamCall) :
    ((bursts l).map ipBytes).sum + ipBytes (intervalsOf l).2 = ipBytes (packetsOf l) := by
  rw [← burstTotals_intervals, sum_burstTotals, packetsOf_intervals, ipBytes_append,
    ipBytes_flatten]

theorem countBurst_lines (run : Run (countBurst I interval) Streams.new h s)
    (hquiet : Quiet (h.map Prod.fst)) : h.flatMap Prod.snd =
      ((intervalsOf (h.map Prod.fst)).1.map ipBytes).map fun n : ℕ => Line.total n := by
  induction run with
  | nil => rfl
  | @snoc h s c lines s' run _ hs ih =>
    rw [List.map_append, List.map_singleton] at hquiet ⊢
    rw [List.flatMap_append, List.flatMap_singleton, intervalsOf_concat,
      ih fun f hf => hquiet f (packetsOf_append _ _ ▸ List.mem_append_left _ hf)]
    cases c with
    | packet f =>
      obtain ⟨e, hheader⟩ := handleStream_lines hs
      have hnone : lines = [] := by
        refine hquiet f ?_ _ hheader
        rw [packetsOf_packet]
        exact List.mem_append_right _ List.mem_cons_self
      rw [hnone, List.append_nil, addCall]
    | tick =>
      obtain ⟨rfl, -⟩ := testFunc_eq_ok hs
      rw [addCall, ((countBurst_counts I interval).separate run).pending, handledBytes_eq]
      simp

/-- Where no packet has a line of its own, the last tick closes a burst and no burst is past the
range of an `int`, the two programs give the bytes of each burst in the order of time.  With
those since the last tick they are the bytes of all packets. -/
theorem bursts_measured (run : Run (countBurst I interval) Streams.new h s)
    (hquiet : Quiet (h.map Prod.fst))
    (hidle : ∀ ps ∈ (intervalsOf (h.map Prod.fst)).1.getLast?, ipBytes ps = 0)
    (hfit : ∀ ps ∈ bursts (h.map Prod.fst), ipBytes ps ≤ intMax) :
    ∃ lines : List ℕ, h.flatMap Prod.snd = lines.map (fun n : ℕ => Line.total n) ∧
      main lines = .ok ((bursts (h.map Prod.fst)).map ipBytes) ∧
      ((bursts (h.map Prod.fst)).map ipBytes).sum + s.pending =
        ipBytes (packetsOf (h.map Prod.fst)) := by
  refine ⟨_, countBurst_lines run hquiet, ?_, ?_⟩
  · have hlast : ∀ line ∈ ((intervalsOf (h.map Prod.fst)).1.map ipBytes).getLast?, line = 0 := by
      intro line hline
      rw [List.getLast?_map, Option.mem_def, Option.map_eq_some_iff] at hline
      obtain ⟨ps, hps, rfl⟩ := hline
      exact hidle ps hps
    have hrange : ∀ b ∈ burstTotals ((intervalsOf (h.map Prod.fst)).1.map ipBytes),
        b ≤ intMax := by
      intro b hb
      rw [burstTotals_intervals] at hb
      obtain ⟨ps, hps, rfl⟩ := List.mem_map.mp hb
      exact hfit ps hps
    have hnil : 0 ∉ ([] : List ℕ) := List.not_mem_nil
    obtain ⟨flag, hfold⟩ := foldlM_readLine (s := ⟨false, 0, []⟩) hnil rfl hlast hrange
    rw [List.nil_append, List.nil_append, burstTotals_intervals] at hfold
    rw [main, hfold]
    rfl
  · rw [((countBurst_counts I interval).separate run).pending, handledBytes_eq]
    exact_mod_cast sum_bursts (h.map Prod.fst)

def twoBursts : List StreamCall :=
  [.packet (streamFrame 72 10#8 1#16), .tick, .packet (streamFrame 22 10#8 2#16),
    .packet (streamFrame 47 10#8 1#16), .tick, .tick, .packet (streamFrame 12 10#8 2#16), .tick,
    .tick]

theorem bursts_measured_sample :
    ∃ h s lines, Run (countBurst .int32 1000) Streams.new h s ∧
      h.flatMap Prod.snd = List.map (fun n : ℕ => Line.total n) lines ∧
      main lines = .ok [225, 40] := by
  obtain ⟨h, s, run, hcalls⟩ := exists_run_of_isOk
    (by decide +kernel : (exec (countBurst .int32 1000) Streams.new twoBursts).isOk)
  have hbursts : (bursts twoBursts).map ipBytes = [225, 40] := by decide +kernel
  obtain ⟨lines, hfile, hmain, -⟩ := bursts_measured run (by rw [hcalls]; decide +kernel)
    (by rw [hcalls]; decide +kernel) (by rw [hcalls]; decide +kernel)
  rw [hcalls, hbursts] at hmain
  exact ⟨h, s, lines, run, hfile, hmain⟩

end MeasurementLimiter.MeasureRate
