import MeasurementLimiter.Runs
import MeasurementLimiter.Sequences

namespace MeasurementLimiter.BurstTotals

open Runs Sequences

def intMax : ℕ := 2 ^ 31 - 1

inductive TotalFault
  | overflow
  deriving DecidableEq

/-- The variables of `main`.  No line is negative, and neither is `tot`. -/
structure Totals where
  flag : Bool
  tot : ℕ
  byte : List ℕ
  deriving DecidableEq

/-- `ss>>now`, which reads a number past the range as the largest `int`. -/
def readNow (line : ℕ) : ℕ := min line intMax

def Totals.add (s : Totals) (now : ℕ) : Except TotalFault Totals :=
  if s.tot + now ≤ intMax then .ok { s with tot := s.tot + now } else .error .overflow

/-- The number of a line is added, inside a burst or at its start alike. -/
def Totals.count (s : Totals) (now : ℕ) : Except TotalFault Totals :=
  if s.flag = false then Totals.add { s with flag := true } now else s.add now

def readLine (s : Totals) (line : ℕ) : Except TotalFault Totals := do
  let now := readNow line
  let s ← s.count now
  if now = 0 ∧ s.tot ≠ 0 then return { s with byte := s.byte ++ [s.tot], tot := 0, flag := false }
  else return s

/-- `main`: the lines it writes for the lines of the file. -/
def main (lines : List ℕ) : Except TotalFault (List ℕ) := do
  let s ← lines.foldlM readLine ⟨false, 0, []⟩
  return s.byte

/-- The sums of the longest runs of lines that are not zero. -/
def burstTotals (lines : List ℕ) : List ℕ := (pieces 0 lines).map List.sum

/-- The file has the total of every burst, so that no byte is lost. -/
def Complete (lines : List ℕ) : Prop :=
  ∃ out, main lines = .ok out ∧ out = burstTotals lines ∧ out.sum = lines.sum

theorem sum_burstTotals (lines : List ℕ) : (burstTotals lines).sum = lines.sum := by
  rw [burstTotals, ← List.sum_flatten, flatten_pieces]
  induction lines with
  | nil => rfl
  | cons a lines ih =>
    by_cases ha : a = 0
    case pos => simpa [ha] using ih
    simpa [ha] using ih

variable {s s' : Totals} {line : ℕ}

theorem readLine_eq (s : Totals) (line : ℕ) : readLine s line =
    if s.tot + readNow line ≤ intMax then
      if readNow line = 0 ∧ s.tot ≠ 0 then .ok ⟨false, 0, s.byte ++ [s.tot]⟩
      else .ok ⟨true, s.tot + readNow line, s.byte⟩
    else .error .overflow := by
  have hcount : s.count (readNow line) =
      if s.tot + readNow line ≤ intMax then .ok ⟨true, s.tot + readNow line, s.byte⟩
      else .error .overflow := by
    obtain ⟨flag, tot, byte⟩ := s
    cases flag <;> rfl
  rw [readLine, hcount]
  by_cases hle : s.tot + readNow line ≤ intMax
  case neg =>
    rw [if_neg hle, if_neg hle]
    rfl
  rw [if_pos hle, if_pos hle]
  by_cases hnow : readNow line = 0 ∧ s.tot ≠ 0
  case pos =>
    rw [if_pos hnow]
    change (if readNow line = 0 ∧ s.tot + readNow line ≠ 0 then _ else _) = _
    rw [hnow.1, Nat.add_zero, if_pos ⟨rfl, hnow.2⟩]
    rfl
  rw [if_neg hnow]
  refine if_neg ?_
  rintro ⟨hzero, htot⟩
  exact hnow ⟨hzero, by simpa [hzero] using htot⟩

theorem readNow_eq_zero (line : ℕ) : readNow line = 0 ↔ line = 0 := by
  unfold readNow intMax
  omega

/-- The loop after some lines: nothing past the range of an `int` is kept, the lines as they
were read are in the totals, and no burst is open exactly behind a zero. -/
structure Summed (lines : List ℕ) (s : Totals) : Prop where
  tot_le : s.tot ≤ intMax
  byte_le : ∀ b ∈ s.byte, b ≤ intMax
  sum_eq : s.byte.sum + s.tot = (lines.map readNow).sum
  closed : s.tot = 0 ↔ ∀ line ∈ lines.getLast?, line = 0

theorem summed_nil : Summed [] ⟨false, 0, []⟩ := ⟨by decide, by simp, rfl, by simp⟩

theorem Summed.readLine {lines : List ℕ} (h : Summed lines s) (hread : readLine s line = .ok s') :
    Summed (lines ++ [line]) s' := by
  have htot := h.tot_le
  have hsum := h.sum_eq
  have hnow := readNow_eq_zero line
  rw [readLine_eq] at hread
  split_ifs at hread with hle hkeep
  · obtain rfl := Except.ok.inj hread
    refine ⟨Nat.zero_le _, ?_, ?_, by simp [hnow.mp hkeep.1]⟩
    · intro b hb
      rcases List.mem_append.mp hb with hb | hb
      · exact h.byte_le b hb
      · exact List.mem_singleton.mp hb ▸ htot
    · simp [hkeep.1, ← hsum]
  · obtain rfl := Except.ok.inj hread
    refine ⟨hle, h.byte_le, ?_, ?_⟩
    · simp [← hsum, add_assoc]
    · simp only [List.getLast?_concat, Option.mem_some_iff, forall_eq']
      omega

theorem burst_le {burst lines : List ℕ} (hburst : 0 ∉ burst)
    (hfit : ∀ b ∈ burstTotals (burst ++ lines), b ≤ intMax) : burst.sum ≤ intMax := by
  by_cases hne : burst = []
  case pos => simp [hne]
  obtain ⟨q, hq, hpre⟩ := exists_piece hburst hne lines
  exact (hpre.sublist.sum_le_sum fun _ _ => Nat.zero_le _).trans
    (hfit _ (List.mem_map_of_mem hq))

theorem burstTotals_cut (burst lines : List ℕ) :
    burstTotals (burst ++ 0 :: lines) = burstTotals burst ++ burstTotals lines := by
  rw [burstTotals, pieces_append_cons, List.map_append]
  rfl

theorem burstTotals_burst {burst : List ℕ} (hburst : 0 ∉ burst) :
    burstTotals burst = if burst.sum = 0 then [] else [burst.sum] := by
  have hsum : burst.sum = 0 ↔ burst = [] := by
    constructor
    · intro hsum
      refine List.eq_nil_iff_forall_not_mem.mpr fun line hline => hburst ?_
      exact List.sum_eq_zero_iff.mp hsum line hline ▸ hline
    · rintro rfl
      rfl
  rw [burstTotals, pieces_of_notMem hburst]
  simp only [hsum]
  split_ifs <;> rfl

theorem readLine_zero {burst : List ℕ} (hburst : 0 ∉ burst) (htot : s.tot = burst.sum)
    (hle : burst.sum ≤ intMax) :
    ∃ flag, readLine s 0 = .ok ⟨flag, 0, s.byte ++ burstTotals burst⟩ := by
  rw [readLine_eq, show readNow 0 = 0 from rfl, Nat.add_zero, if_pos (htot ▸ hle),
    burstTotals_burst hburst, ← htot]
  by_cases hzero : s.tot = 0
  · exact ⟨true, by simp [hzero]⟩
  · exact ⟨false, by simp [hzero]⟩

theorem readLine_pos {now : ℕ} (hnow : now ≠ 0) (hle : s.tot + now ≤ intMax) :
    readLine s now = .ok ⟨true, s.tot + now, s.byte⟩ := by
  have hread : readNow now = now := Nat.min_eq_left (by omega)
  rw [readLine_eq, hread, if_pos hle, if_neg fun h => hnow h.1]

/-- The lines behind an open burst `burst`, where no total is past the range and the last line
is zero: each burst is kept. -/
theorem foldlM_readLine {burst lines : List ℕ} (hburst : 0 ∉ burst) (htot : s.tot = burst.sum)
    (hlast : ∀ line ∈ (burst ++ lines).getLast?, line = 0)
    (hfit : ∀ b ∈ burstTotals (burst ++ lines), b ≤ intMax) :
    ∃ flag, lines.foldlM readLine s = .ok ⟨flag, 0, s.byte ++ burstTotals (burst ++ lines)⟩ := by
  induction lines generalizing burst s with
  | nil =>
    obtain rfl : burst = [] := by
      by_contra hne
      rw [List.append_nil, List.getLast?_eq_some_getLast hne] at hlast
      exact hburst (hlast _ rfl ▸ List.getLast_mem hne)
    obtain ⟨flag, tot, byte⟩ := s
    obtain rfl : tot = 0 := htot
    exact ⟨flag, by simp [burstTotals, pieces]; rfl⟩
  | cons line lines ih =>
    rw [List.foldlM_cons]
    by_cases hline : line = 0
    case neg =>
      have hsnoc : 0 ∉ burst ++ [line] := by simp [hburst, Ne.symm hline]
      rw [List.append_cons] at hlast hfit
      have hle := burst_le hsnoc hfit
      rw [List.sum_append, List.sum_singleton, ← htot] at hle
      rw [readLine_pos hline hle, ok_bind, List.append_cons]
      exact ih (s := ⟨true, s.tot + line, s.byte⟩) hsnoc (by simp [htot]) hlast hfit
    subst hline
    obtain ⟨flag, hread⟩ := readLine_zero hburst htot (burst_le hburst hfit)
    rw [burstTotals_cut] at hfit
    rw [hread, ok_bind, burstTotals_cut, ← List.append_assoc]
    refine ih (s := ⟨flag, 0, s.byte ++ burstTotals burst⟩) List.not_mem_nil rfl ?_ ?_
    · intro line hmem
      refine hlast line ?_
      rw [List.nil_append] at hmem
      rw [List.getLast?_append, List.getLast?_cons, Option.mem_def.mp hmem]
      rfl
    · intro b hb
      exact hfit b (List.mem_append_right _ hb)

/-- The file has every total if and only if no burst is open at the end and no total is past the
range of an `int`. -/
theorem complete_iff (lines : List ℕ) : Complete lines ↔
    (∀ line ∈ lines.getLast?, line = 0) ∧ ∀ b ∈ burstTotals lines, b ≤ intMax := by
  constructor
  · rintro ⟨out, hmain, hout, hsum⟩
    rw [main] at hmain
    cases hfold : lines.foldlM readLine ⟨false, 0, []⟩ with
    | error e =>
      rw [hfold] at hmain
      cases hmain
    | ok s =>
      rw [hfold] at hmain
      obtain rfl : s.byte = out := Except.ok.inj hmain
      have h : Summed lines s := foldlM_invariant summed_nil
        (fun _ _ _ _ h hread => h.readLine hread) hfold
      refine ⟨h.closed.mp ?_, hout ▸ h.byte_le⟩
      have hread : (lines.map readNow).sum ≤ lines.sum := by
        have hline : ∀ line ∈ lines, readNow line ≤ id line := fun line _ => Nat.min_le_left line _
        simpa only [List.map_id] using List.sum_le_sum hline
      have htotal := h.sum_eq
      omega
  · rintro ⟨hlast, hfit⟩
    have hnil : 0 ∉ ([] : List ℕ) := List.not_mem_nil
    obtain ⟨flag, hfold⟩ := foldlM_readLine (s := ⟨false, 0, []⟩) hnil rfl hlast hfit
    refine ⟨_, ?_, rfl, sum_burstTotals lines⟩
    rw [main, hfold]
    rfl

/-- A burst at the end of the file is lost. -/
theorem last_burst_lost : main [3, 0, 5] = .ok [3] ∧ burstTotals [3, 0, 5] = [3, 5] ∧
    ¬∀ lines, Complete lines := by
  have hmain : main [3, 0, 5] = .ok [3] := by decide
  have htotals : burstTotals [3, 0, 5] = [3, 5] := by decide
  refine ⟨hmain, htotals, ?_⟩
  intro hall
  obtain ⟨out, hout, heq, -⟩ := hall [3, 0, 5]
  rw [hmain] at hout
  rw [← Except.ok.inj hout, htotals] at heq
  exact absurd heq (by decide)

end MeasurementLimiter.BurstTotals
