import MeasurementLimiter.RateDensest
import MeasurementLimiter.RateWindows

namespace MeasurementLimiter.MeasureRate

open Runs

variable {interval : ℤ} {q : List ℚ} {ratio : ℚ} {printed : List ℚ} {s s' : Speed} {p : Capture}

theorem meanOf_between {lr : ℕ × ℕ} (h : lr.1 < lr.2 ∧ lr.2 < q.length) :
    sample q lr.1 ≤ meanOf q lr ∧ meanOf q lr ≤ sample q lr.2 := by
  have hcard : ((Finset.Icc lr.1 lr.2).card : ℚ) = lr.2 - lr.1 + 1 := by
    rw [Nat.card_Icc, Nat.cast_sub (by omega)]
    push_cast
    ring
  have hpos : (0 : ℚ) < lr.2 - lr.1 + 1 := by
    have hlt : (lr.1 : ℚ) < lr.2 := by exact_mod_cast h.1
    linarith
  rw [meanOf, le_div_iff₀ hpos, div_le_iff₀ hpos, ← hcard]
  constructor
  · have hsum := Finset.card_nsmul_le_sum (Finset.Icc lr.1 lr.2) (sample q) (sample q lr.1)
      fun k hk => sample_mono q (Finset.mem_Icc.mp hk).1 ((Finset.mem_Icc.mp hk).2.trans_lt h.2)
    rwa [nsmul_eq_mul, mul_comm] at hsum
  · have hsum := Finset.sum_le_card_nsmul (Finset.Icc lr.1 lr.2) (sample q) (sample q lr.2)
      fun k hk => sample_mono q (Finset.mem_Icc.mp hk).2 h.2
    rwa [nsmul_eq_mul, mul_comm] at hsum

theorem getRatio_between (hne : q ≠ []) (h : getRatio q = .ok ratio) :
    ∃ x ∈ q, ∃ y ∈ q, x ≤ ratio ∧ ratio ≤ y := by
  by_cases hdiffer : ∃ x, ∀ y ∈ q, y = x
  · obtain ⟨x, hall⟩ := hdiffer
    obtain ⟨y, hy⟩ := List.exists_mem_of_ne_nil q hne
    obtain rfl := Except.ok.inj (h.symm.trans (getRatio_common hne hall))
    obtain rfl := hall y hy
    exact ⟨y, hy, y, hy, le_rfl, le_rfl⟩
  · have hlen := two_le_length hne hdiffer
    obtain ⟨lr, d, hmean⟩ := getRatio_mean hlen fun hL => hdiffer (common_of_threshold hL)
    obtain rfl := Except.ok.inj (h.symm.trans hmean)
    have hplaces := d.admissible
    obtain ⟨hlow, hhigh⟩ := meanOf_between ⟨hplaces.1, hplaces.2.1⟩
    exact ⟨_, sample_mem (hplaces.1.trans hplaces.2.1), _, sample_mem hplaces.2.1, hlow, hhigh⟩

def Line.smooth : Line → Option ℚ
  | .rate smooth => some smooth
  | _ => none

def printedRates (h : List (Capture × List Line)) : List ℚ :=
  (h.flatMap Prod.snd).filterMap Line.smooth

theorem ipHeader_smooth (p : Capture) : (ipHeader p).1.filterMap Line.smooth = [] := by
  unfold ipHeader ipChecks
  dsimp only
  split_ifs <;> rfl

/-- The rates of all windows so far are those of their bytes, and with each one was printed
`get_ratio` of the last four. -/
structure Smoothed (interval : ℤ) (printed : List ℚ) (s : Speed) : Prop where
  queue : s.q = lastRates queueSize (s.reported.map Prod.snd)
  rates : ∀ e ∈ s.reported, e.2 = rate interval e.1
  length : printed.length = s.reported.length
  smooth : ∀ i (hi : i < printed.length),
    getRatio (lastRates queueSize ((s.reported.map Prod.snd).take (i + 1))) = .ok printed[i]

theorem Smoothed.openWindow (h : Smoothed interval printed s) (twice now : ℤ) :
    Smoothed interval printed (s.openWindow twice interval now) := by
  have hq : (s.openWindow twice interval now).q = s.q ∧
      (s.openWindow twice interval now).reported = s.reported := by
    unfold Speed.openWindow Speed.openLate Speed.openFirst
    split_ifs <;> exact ⟨rfl, rfl⟩
  refine ⟨?_, ?_, ?_, ?_⟩
  · rw [hq.1, hq.2]
    exact h.queue
  · rw [hq.2]
    exact h.rates
  · rw [hq.2]
    exact h.length
  · rw [hq.2]
    exact h.smooth

theorem Smoothed.close (h : Smoothed interval printed s) {smooth : ℚ}
    (hsmooth : getRatio (pushRate s.q (rate interval s.totIppktLen)) = .ok smooth) :
    Smoothed interval (printed ++ [smooth]) (s.next interval) := by
  have hreported : (s.next interval).reported.map Prod.snd =
      s.reported.map Prod.snd ++ [rate interval s.totIppktLen] := List.map_append
  have hlen := h.length
  refine ⟨?_, fun e he => ?_, ?_, fun i hi => ?_⟩
  · rw [hreported, ← pushRate_lastRates, ← h.queue]
    rfl
  · rcases List.mem_append.mp he with he | he
    · exact h.rates e he
    · rw [List.mem_singleton.mp he]
  · change (printed ++ [smooth]).length = (s.reported ++ [_]).length
    rw [List.length_append, List.length_append, hlen]
    rfl
  · rw [hreported]
    rcases (Nat.lt_succ_iff_lt_or_eq.mp (by simpa using hi)) with hlt | rfl
    · rw [List.take_append_of_le_length (by rw [List.length_map]; omega),
        List.getElem_append_left hlt]
      exact h.smooth i hlt
    · rw [List.take_of_length_le (by simp [hlen]), ← pushRate_lastRates, ← h.queue, hsmooth,
        List.getElem_concat_length rfl]

theorem Smoothed.closeWindow (h : Smoothed interval printed s) {now : ℤ} {lines : List Line}
    (heq : s.closeWindow interval now = .ok (lines, s')) :
    Smoothed interval (printed ++ lines.filterMap Line.smooth) s' := by
  unfold Speed.closeWindow at heq
  dsimp only at heq
  split_ifs at heq
  · cases hsmooth : getRatio (pushRate s.q (rate interval s.totIppktLen)) with
    | error e => simp [hsmooth] at heq
    | ok smooth =>
      simp only [hsmooth, Except.ok.injEq, Prod.mk.injEq] at heq
      obtain ⟨rfl, rfl⟩ := heq
      exact h.close hsmooth
  · obtain ⟨rfl, rfl⟩ := Prod.mk.inj (Except.ok.inj heq)
    simpa using h

theorem Smoothed.step (h : Smoothed interval printed s) {lines : List Line}
    (heq : handleIp interval s p = .ok (lines, s')) :
    Smoothed interval (printed ++ lines.filterMap Line.smooth) s' := by
  unfold handleIp at heq
  cases hlen : (ipHeader p).2 with
  | none =>
    simp only [hlen, Except.ok.injEq, Prod.mk.injEq] at heq
    obtain ⟨rfl, rfl⟩ := heq
    rwa [ipHeader_smooth, List.append_nil]
  | some len =>
    simp only [hlen, bind_eq_ok] at heq
    obtain ⟨twice, -, ⟨closed, w⟩, hw, s₁, hcount, hs⟩ := heq
    obtain ⟨-, rfl⟩ := Speed.count_eq_ok.mp hcount
    obtain ⟨rfl, rfl⟩ := Prod.mk.inj (Except.ok.inj hs)
    have hnext := (h.openWindow twice p.now).closeWindow hw
    rw [List.filterMap_append, ipHeader_smooth, List.nil_append]
    exact ⟨hnext.queue, hnext.rates, hnext.length, hnext.smooth⟩

theorem smoothed_of_run {h : List (Capture × List Line)}
    (run : Run (handleIp interval) Speed.new h s) : Smoothed interval (printedRates h) s := by
  refine run.invariant (I := fun h s => Smoothed interval (printedRates h) s) ?_ ?_
  · exact ⟨rfl, fun e he => absurd he List.not_mem_nil, rfl, fun i hi => absurd hi (Nat.not_lt_zero i)⟩
  · intro h s p lines s' hs _ heq
    have hlines : printedRates (h ++ [(p, lines)]) =
        printedRates h ++ lines.filterMap Line.smooth := by
      rw [printedRates, List.flatMap_append, List.flatMap_singleton, List.filterMap_append]
      rfl
    rw [hlines]
    exact hs.step heq

theorem mem_lastRates {n : ℕ} {l : List (ℤ × ℚ)} {x : ℚ} (h : x ∈ lastRates n (l.map Prod.snd)) :
    ∃ e ∈ l.drop (l.length - n), e.2 = x := by
  rw [lastRates, List.length_map, ← List.map_drop] at h
  exact List.mem_map.mp h

/-- Every window that closes has a rate printed, and that is between those of two of the last four
windows: the bits of one of them in its time, or more, and those of another, or less. -/
theorem printed_between (hpos : 0 < interval) {h : List (Capture × List Line)}
    (run : Run (handleIp interval) Speed.new h s) :
    (printedRates h).length = s.reported.length ∧
      ∀ i (hi : i < (printedRates h).length),
        ∃ e ∈ (s.reported.take (i + 1)).drop (i + 1 - 4),
          ∃ e' ∈ (s.reported.take (i + 1)).drop (i + 1 - 4),
            8 * e.1 ≤ (printedRates h)[i] * (interval * 1000) ∧
              (printedRates h)[i] * (interval * 1000) ≤ 8 * e'.1 := by
  have hs := smoothed_of_run run
  refine ⟨hs.length, fun i hi => ?_⟩
  have hlen : (s.reported.take (i + 1)).length = i + 1 := by
    rw [List.length_take, ← hs.length]
    omega
  have hsmooth := hs.smooth i hi
  rw [← List.map_take] at hsmooth
  have hne : lastRates queueSize ((s.reported.take (i + 1)).map Prod.snd) ≠ [] := by
    rw [lastRates, List.length_map, hlen, ne_eq, List.drop_eq_nil_iff, List.length_map, hlen]
    unfold queueSize
    omega
  have hunits : (0 : ℚ) < interval * 1000 := by
    have : (0 : ℚ) < interval := by exact_mod_cast hpos
    linarith
  obtain ⟨x, hx, y, hy, hlow, hhigh⟩ := getRatio_between hne hsmooth
  obtain ⟨e, he, rfl⟩ := mem_lastRates hx
  obtain ⟨e', he', rfl⟩ := mem_lastRates hy
  rw [hlen] at he he'
  have hrate : ∀ e ∈ (s.reported.take (i + 1)).drop (i + 1 - queueSize),
      e.2 * (interval * 1000) = 8 * e.1 := by
    intro e he
    rw [hs.rates e (List.mem_of_mem_take (List.mem_of_mem_drop he)), rate_eq,
      div_mul_cancel₀ _ hunits.ne']
  refine ⟨e, he, e', he', ?_, ?_⟩
  · rw [← hrate e he]
    exact mul_le_mul_of_nonneg_right hlow hunits.le
  · rw [← hrate e' he']
    exact mul_le_mul_of_nonneg_right hhigh hunits.le

theorem printed_between_sample :
    ∃ h s, Run (handleIp 1000) Speed.new h s ∧ s.reported.map Prod.fst = [100, 1472] ∧
      (printedRates h).length = s.reported.length := by
  obtain ⟨h, s, run, hs⟩ := exists_run_of_exec (fun s : Speed => s.reported.map Prod.fst)
    (b := [100, 1472])
    (show (exec (handleIp 1000) Speed.new [⟨142#32, 0x45#8, 128#16, 0⟩,
      ⟨1514#32, 0x45#8, 1500#16, 1000⟩, ⟨142#32, 0x45#8, 128#16, 2000⟩]).toOption.map _ = _ by
      decide +kernel)
  exact ⟨h, s, run, hs, (printed_between (by decide) run).1⟩

end MeasurementLimiter.MeasureRate
