import MeasurementLimiter.Bursts
import MeasurementLimiter.TsfBooks

namespace MeasurementLimiter

open Runs TokenBucket Bursts

variable {K : Kernel} {τ s t : ℤ} {skb : Skb} {rate : PschedRatecfg} {T : ℕ} {k k' : Ring}
  {l : List Event} {q₀ q : Tsf}

def Event.send (rate : PschedRatecfg) : Event → Option (ℤ × ℤ)
  | .sent now skb => some (now, rate.l2tNs skb.pktLen)
  | _ => none

def sendLog (rate : PschedRatecfg) (l : List Event) : List (ℤ × ℤ) :=
  l.filterMap (Event.send rate)

theorem sendLog_snoc (rate : PschedRatecfg) (l : List Event) (e : Event) :
    sendLog rate (l ++ [e]) = sendLog rate l ++ (e.send rate).toList :=
  filterMap_snoc _ l e

/-- What is sent is sent as `Bursts.Sends` allows, if the pauses are kept. -/
structure Shaped (rate : PschedRatecfg) (T : ℕ) (τ : ℤ) (l : List Event) (free last : ℤ) : Prop where
  last_le : last ≤ τ
  free_mem : free = 0 ∨
    ∃ (now : ℤ) (sleepTime : ℕ), .finished now sleepTime ∈ l ∧ free = now + sleepTime
  sends : Sends (longestBurst T : ℤ) (start 0) (sendLog rate l) ⟨burst rate l, free, last⟩

namespace Shaped

variable {free last : ℤ}

theorem other (h : Shaped rate T τ l free last) {e : Event} (hsend : e.send rate = none)
    (hburst : ∀ b, e.burst rate b = b) : Shaped rate T τ (l ++ [e]) free last := by
  refine ⟨h.last_le, ?_, ?_⟩
  · rcases h.free_mem with hz | ⟨now, sleepTime, he, hfree⟩
    · exact .inl hz
    · exact .inr ⟨now, sleepTime, List.mem_append_left _ he, hfree⟩
  · rw [sendLog_snoc, hsend, burst_append, hburst]
    simpa using h.sends

theorem sent (h : Shaped rate T τ l free last) (hτ : 0 ≤ τ)
    (hspaced : ∀ (now : ℤ) (sleepTime : ℕ), .finished now sleepTime ∈ l → now + sleepTime ≤ τ)
    (hcap : burst rate l + rate.l2tNs skb.pktLen ≤ longestBurst T) :
    Shaped rate T τ (l ++ [.sent τ skb]) free τ := by
  have hfree : free ≤ τ := by
    rcases h.free_mem with rfl | ⟨now, sleepTime, he, rfl⟩
    · exact hτ
    · exact hspaced now sleepTime he
  refine ⟨le_rfl, ?_, ?_⟩
  · rcases h.free_mem with hz | ⟨now, sleepTime, he, hfree⟩
    · exact .inl hz
    · exact .inr ⟨now, sleepTime, List.mem_append_left _ he, hfree⟩
  · rw [sendLog_snoc, burst_append]
    have hsend := h.sends.send (c := (rate.l2tNs skb.pktLen : ℤ)) h.last_le hfree
      (Int.natCast_nonneg _) (show (burst rate l : ℤ) + rate.l2tNs skb.pktLen ≤ _ by
        exact_mod_cast hcap)
    simpa [Event.send, Event.burst] using hsend

theorem finished (h : Shaped rate T τ l free last) (hburst : 0 < burst rate l) :
    Shaped rate T τ (l ++ [.finished τ (burst rate l)]) (τ + burst rate l) τ := by
  have hfree : free ≤ last := h.sends.free_le (Int.natCast_pos.mpr hburst)
  refine ⟨le_rfl, .inr ⟨τ, burst rate l, by simp, rfl⟩, ?_⟩
  rw [sendLog_snoc, burst_append]
  have hpause := h.sends.pause h.last_le (hfree.trans h.last_le)
  simpa [Event.send, Event.burst] using hpause

end Shaped

/-- The invariant of a run with packets that take at most `T` each. -/
structure Smooth (rate : PschedRatecfg) (T : ℕ) (τ : ℤ) (k : Ring) (l : List Event) : Prop where
  booked : Booked rate k l
  capped : Brief rate T l → Capped T k
  nonneg : 0 ≤ τ
  shaped : Brief rate T l → Paced l → ∃ free last, Shaped rate T τ l free last
  pauses : Brief rate T l → ∀ (now : ℤ) (sleepTime : ℕ), .finished now sleepTime ∈ l →
    sleepTime ≤ longestBurst T

theorem Capped.burst_le {b : ℕ} (h : Capped T k) (g : Ledger k b) : b ≤ longestBurst T := by
  have hpos : 0 < k.totalTime := by have := h.two_le; omega
  have hsleep := g.sleep 0 hpos
  have hcap := h.cap_nth hpos
  rw [if_pos rfl] at hsleep
  omega

theorem mem_of_finished_mem {now : ℤ} {sleepTime : ℕ} {e : Event}
    (h : .finished now sleepTime ∈ l ++ [e]) (he : ∀ now sleepTime, e ≠ .finished now sleepTime) :
    .finished now sleepTime ∈ l := by
  rcases List.mem_append.mp h with h | h
  · exact h
  · exact absurd (List.mem_singleton.mp h).symm (he now sleepTime)

theorem Event.Elsewhere.not_finished {e : Event} (h : e.Elsewhere) (now : ℤ) (sleepTime : ℕ) :
    e ≠ .finished now sleepTime := by
  rintro rfl
  exact h

theorem smooth_logged (rate : PschedRatecfg) (hT : T < 2 ^ 31) : Logged (Smooth rate T) where
  ring h := h.booked.ledger.toRingInv
  later := by
    intro τ τ' k l hle h
    refine ⟨h.booked, h.capped, h.nonneg.trans hle, fun hb hp => ?_, h.pauses⟩
    obtain ⟨free, last, hs⟩ := h.shaped hb hp
    exact ⟨free, last, hs.last_le.trans hle, hs.free_mem, hs.sends⟩
  elsewhere := by
    intro τ k l e h he
    have hlog := (capped_logged rate hT).elsewhere (τ := τ) e ⟨h.booked, h.capped⟩ he
    refine ⟨hlog.1, hlog.2, h.nonneg, fun hb hp => ?_, fun hb now sleepTime hmem => ?_⟩
    · obtain ⟨free, last, hs⟩ := h.shaped hb.of_append (List.pairwise_append.mp hp).1
      refine ⟨free, last, hs.other ?_ he.quiet.burst⟩
      cases e with
      | offered | bypassed => rfl
      | stored | finished | sent => exact he.elim
    · exact h.pauses hb.of_append now sleepTime (mem_of_finished_mem hmem he.not_finished)
  stored := by
    intro τ k k' l skb h heq
    have hlog := (capped_logged rate hT).stored (τ := τ) ⟨h.booked, h.capped⟩ heq
    refine ⟨hlog.1, hlog.2, h.nonneg, fun hb hp => ?_, fun hb now sleepTime hmem => ?_⟩
    · obtain ⟨free, last, hs⟩ := h.shaped hb.of_append (List.pairwise_append.mp hp).1
      exact ⟨free, last, hs.other rfl fun _ => rfl⟩
    · exact h.pauses hb.of_append now sleepTime (mem_of_finished_mem hmem (by simp))
  sent := by
    intro τ k k' l skb h heq
    have hlog := (capped_logged rate hT).sent (τ := τ) ⟨h.booked, h.capped⟩ heq
    refine ⟨hlog.1, hlog.2, h.nonneg, fun hb hp => ?_, fun hb now sleepTime hmem => ?_⟩
    · obtain ⟨hpaced, hspaced⟩ := paced_sent.mp hp
      obtain ⟨free, last, hs⟩ := h.shaped hb.of_append hpaced
      have hcap := (hlog.2 hb).burst_le hlog.1.ledger
      rw [burst_append] at hcap
      exact ⟨free, τ, hs.sent h.nonneg hspaced hcap⟩
    · exact h.pauses hb.of_append now sleepTime (mem_of_finished_mem hmem (by simp))
  nothing := by
    intro τ k k' l h heq
    have hlog := (capped_logged rate hT).nothing (τ := τ) ⟨h.booked, h.capped⟩ heq
    exact ⟨hlog.1, hlog.2, h.nonneg, h.shaped, h.pauses⟩
  finished := by
    intro τ k l h howes
    have hlog := (capped_logged rate hT).finished (τ := τ) ⟨h.booked, h.capped⟩ howes
    have hsleep := h.booked.ledger.sleep_read howes.1
    have hburst : 0 < burst rate l := hsleep ▸ howes.2
    refine ⟨hlog.1, hlog.2, h.nonneg, fun hb hp => ?_, fun hb now sleepTime hmem => ?_⟩
    · obtain ⟨free, last, hs⟩ := h.shaped hb.of_append (List.pairwise_append.mp hp).1
      rw [hsleep]
      exact ⟨_, τ, hs.finished hburst⟩
    · rcases List.mem_append.mp hmem with hmem | hmem
      · exact h.pauses hb.of_append now sleepTime hmem
      · obtain ⟨-, rfl⟩ := Event.finished.inj (List.mem_singleton.mp hmem)
        rw [hsleep]
        exact (h.capped hb.of_append).burst_le h.booked.ledger

theorem smooth_of_run {opt : Option TsfEnv} (hinit : tsfInit K opt = (0, q₀)) {h : TsfHistory}
    (run : Run (tsfStep K) q₀ h q) (hT : T < 2 ^ 31) :
    Smooth q₀.kfifo.rate T (q.now K) q.kfifo q.trace := by
  have hfresh := tsfInit_fresh hinit
  have hnow : 0 ≤ q₀.now K := K.ktime_nonneg.trans (K.ktime_mono (Nat.zero_le _))
  refine (smooth_logged q₀.kfifo.rate hT).run ?_ run
  refine ⟨hfresh.booked, fun _ => hfresh.ring.capped T, hnow, ?_, ?_⟩
  · rw [hfresh.trace]
    exact fun _ _ => ⟨0, 0, hnow, .inl rfl, .nil⟩
  · rw [hfresh.trace]
    simp

/-- An output that keeps its pauses sends in any window at most the longest burst and the
length of the window. -/
theorem Smooth.spent_le (h : Smooth rate T τ k l) (hb : Brief rate T l) (hp : Paced l)
    (hst : s ≤ t) : spent s t (sendLog rate l) ≤ longestBurst T + (t - s) := by
  obtain ⟨free, last, hs⟩ := h.shaped hb hp
  exact hs.sends.spent_le (Int.natCast_nonneg _) hst

theorem paced_of_rested {opt : Option TsfEnv} (hinit : tsfInit K opt = (0, q₀)) {h : TsfHistory}
    (run : GuardedRun (tsfStep K) (Tsf.Rested K) q₀ h q) : Paced q.trace := by
  have hfresh := tsfInit_fresh hinit
  have hinv : Waited K q ∧ Paced q.trace := by
    refine run.keeps (I := fun q => Waited K q ∧ Paced q.trace) ⟨⟨hfresh.ring.inv, ?_⟩, ?_⟩ ?_
    · rw [hfresh.trace]
      simp
    · rw [hfresh.trace]
      exact List.Pairwise.nil
    · rintro q c a q' ⟨w, hp⟩ hrested heq
      exact ⟨w.step heq, (w.paced_iff hp heq).mpr hrested⟩
  exact hinv.2

/-- In every run whose calls wait for the long pauses the ring output is in shape. -/
theorem output_shaped {opt : Option TsfEnv} (hinit : tsfInit K opt = (0, q₀)) {h : TsfHistory}
    (run : GuardedRun (tsfStep K) (Tsf.Rested K) q₀ h q) (hT : T < 2 ^ 31)
    (hbrief : Brief q₀.kfifo.rate T q.trace) (hst : s ≤ t) :
    spent s t (sendLog q₀.kfifo.rate q.trace) ≤ longestBurst T + (t - s) := by
  have hrun : Run (tsfStep K) q₀ h q := run.mono fun _ _ _ => trivial
  exact (smooth_of_run hinit hrun hT).spent_le hbrief (paced_of_rested hinit run) hst

def Event.Over (t : ℤ) : Event → Prop
  | .finished now sleepTime => 1000000 < sleepTime → now + sleepTime ≤ t
  | _ => True

theorem rested_dequeue {spins : ℕ} :
    q.Rested K (.dequeue spins) ↔ q.Sends → ∀ e ∈ q.trace, e.Over (q.now K) := by
  refine imp_congr_right fun _ => ⟨fun h e he => ?_, fun h now sleepTime he => h _ he⟩
  cases e with
  | finished now sleepTime => exact h now sleepTime he
  | offered | stored | sent | bypassed => trivial

instance decidableOver (t : ℤ) : (e : Event) → Decidable (e.Over t)
  | .finished now sleepTime =>
    inferInstanceAs (Decidable (1000000 < sleepTime → now + sleepTime ≤ t))
  | .offered _ => .isTrue trivial
  | .stored _ _ => .isTrue trivial
  | .sent _ _ => .isTrue trivial
  | .bypassed _ _ => .isTrue trivial

instance decidableSends (q : Tsf) : Decidable q.Sends :=
  inferInstanceAs (Decidable (bypassHead q = none ∧ q.kfifo.stored ≠ [] ∧ ¬q.kfifo.Owes))

instance decidableRested (K : Kernel) (q : Tsf) : (c : TsfCall) → Decidable (q.Rested K c)
  | .dequeue _ => decidable_of_iff _ rested_dequeue.symm
  | .enqueue _ => .isTrue trivial
  | .segment _ => .isTrue trivial

theorem output_shaped_sample :
    ∃ q : Tsf, q.trace = [.offered (skbSample 1 60000), .offered (skbSample 2 60000),
        .stored 5000000 (skbSample 1 60000), .stored 6000000 (skbSample 2 60000),
        .sent 6000000 (skbSample 1 60000), .finished 6000000 1046125] ∧
      spent 0 6000000 (sendLog (tsfSample jumboSample 120000000).kfifo.rate q.trace) ≤
        longestBurst 1046125 + (6000000 - 0) := by
  obtain ⟨h, q, run, hq⟩ := exists_guardedRun_of_exec (C := Tsf.Rested jumboSample) Tsf.trace
    (b := [.offered (skbSample 1 60000), .offered (skbSample 2 60000),
      .stored 5000000 (skbSample 1 60000), .stored 6000000 (skbSample 2 60000),
      .sent 6000000 (skbSample 1 60000), .finished 6000000 1046125])
    (show (execGuarded (tsfStep jumboSample) (Tsf.Rested jumboSample)
      (tsfSample jumboSample 120000000)
      [.enqueue (skbSample 9 120000), .dequeue 0, .dequeue 0]).map _ = _ by decide +kernel)
  refine ⟨q, hq, output_shaped (tsfSample_init jumboSample 120000000) run (by decide) ?_
    (by decide)⟩
  rw [hq]
  exact brief_iff.mpr (by decide +kernel)

theorem longestBurst_of_lt (hT : T < unitTime) : longestBurst T = unitTime := by
  rw [longestBurst, Nat.div_eq_of_lt hT]
  rfl

theorem paced_of_short {opt : Option TsfEnv} (hinit : tsfInit K opt = (0, q₀)) {h : TsfHistory}
    (run : Run (tsfStep K) q₀ h q) (hT : T < unitTime) (hbrief : Brief q₀.kfifo.rate T q.trace) :
    Paced q.trace := by
  have hfresh := tsfInit_fresh hinit
  have hsmooth := smooth_logged q₀.kfifo.rate (hT.trans (show unitTime < 2 ^ 31 by decide))
  have hinv : Waited K q ∧ Smooth q₀.kfifo.rate T (q.now K) q.kfifo q.trace ∧
      (Brief q₀.kfifo.rate T q.trace → Paced q.trace) := by
    refine run.keeps (I := fun q => Waited K q ∧ Smooth q₀.kfifo.rate T (q.now K) q.kfifo q.trace ∧
      (Brief q₀.kfifo.rate T q.trace → Paced q.trace)) ⟨?_, ?_, fun _ => ?_⟩ ?_
    · refine ⟨hfresh.ring.inv, ?_⟩
      rw [hfresh.trace]
      simp
    · exact smooth_of_run hinit .nil (hT.trans (show unitTime < 2 ^ 31 by decide))
    · rw [hfresh.trace]
      exact List.Pairwise.nil
    · rintro q c a q' ⟨w, hs, hp⟩ - heq
      obtain ⟨hs', new, hnew⟩ := (hsmooth.extends q.trace).step ⟨hs, List.prefix_refl _⟩ heq
      refine ⟨w.step heq, hs', fun hb => ?_⟩
      rw [← hnew] at hb
      refine (w.paced_iff (hp hb.of_append) heq).mpr ?_
      cases c with
      | enqueue | segment => trivial
      | dequeue spins =>
        intro _ now sleepTime hmem hlong
        have hle := hs.pauses hb.of_append now sleepTime hmem
        rw [longestBurst_of_lt hT] at hle
        exact absurd hlong (not_lt.mpr hle)
  exact hinv.2.2 hbrief

/-- In every run with packets of less than a unit the ring output is in shape. -/
theorem output_shaped_of_short {opt : Option TsfEnv} (hinit : tsfInit K opt = (0, q₀))
    {h : TsfHistory} (run : Run (tsfStep K) q₀ h q) (hT : T < unitTime)
    (hbrief : Brief q₀.kfifo.rate T q.trace) (hst : s ≤ t) :
    spent s t (sendLog q₀.kfifo.rate q.trace) ≤ unitTime + (t - s) := by
  have hsmooth := smooth_of_run hinit run (hT.trans (show unitTime < 2 ^ 31 by decide))
  have hle := hsmooth.spent_le hbrief (paced_of_short hinit run hT hbrief) hst
  rwa [longestBurst_of_lt hT] at hle

theorem output_shaped_of_short_sample :
    ∃ q : Tsf, q.trace = [.offered (skbSample 1 500), .offered (skbSample 2 300),
        .stored 1000 (skbSample 1 500), .sent 1000 (skbSample 1 500), .finished 1000 500] ∧
      spent 1000 1000 (sendLog (tsfSample (pairSample 5 500 300) 1000000000).kfifo.rate q.trace) ≤
        unitTime + (1000 - 1000) := by
  obtain ⟨h, q, run, hq⟩ := exists_run_of_exec Tsf.trace
    (b := [.offered (skbSample 1 500), .offered (skbSample 2 300),
      .stored 1000 (skbSample 1 500), .sent 1000 (skbSample 1 500), .finished 1000 500])
    (show (exec (tsfStep (pairSample 5 500 300)) (tsfSample (pairSample 5 500 300) 1000000000)
      [.enqueue (skbSample 9 2800), .dequeue 0, .dequeue 1]).toOption.map _ = _ by decide +kernel)
  have hinit := tsfSample_init (pairSample 5 500 300) 1000000000
  refine ⟨q, hq, output_shaped_of_short (T := 500) hinit run (by decide) ?_ le_rfl⟩
  rw [hq]
  exact brief_iff.mpr (by decide +kernel)

end MeasurementLimiter
