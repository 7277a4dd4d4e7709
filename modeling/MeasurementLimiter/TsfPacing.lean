import MeasurementLimiter.TsfSafety
import MeasurementLimiter.RingFifo

namespace MeasurementLimiter

open Runs

variable {K : Kernel} {skb : Skb} {ret : NetXmit} {q₀ q q' : Tsf}

def Event.Spaced : Event → Event → Prop
  | .finished now sleepTime, .sent t _ => now + sleepTime ≤ t
  | _, _ => True

def Paced (trace : List Event) : Prop := trace.Pairwise Event.Spaced

def Tsf.Sends (q : Tsf) : Prop := bypassHead q = none ∧ q.kfifo.stored ≠ [] ∧ ¬q.kfifo.Owes

/-- A call that takes a packet from the ring is not made before the end of the long pauses
that were asked for. -/
def Tsf.Rested (K : Kernel) (q : Tsf) : TsfCall → Prop
  | .dequeue _ => q.Sends → ∀ (now : ℤ) (sleepTime : ℕ), .finished now sleepTime ∈ q.trace →
      1000000 < sleepTime → now + sleepTime ≤ q.now K
  | _ => True

def Event.Incoming : Event → Prop
  | .offered _ | .stored _ _ => True
  | _ => False

/-- The later state has read the clock further and its new events are incoming ones. -/
structure Tsf.Receives (q q' : Tsf) : Prop where
  readings : q.readings ≤ q'.readings
  trace : ∃ l, q'.trace = q.trace ++ l ∧ ∀ e ∈ l, e.Incoming

theorem Tsf.Receives.add (r : q.Receives q') {q'' : Tsf} (hreadings : q'.readings ≤ q''.readings)
    (l : List Event) (hl : ∀ e ∈ l, e.Incoming) (htrace : q''.trace = q'.trace ++ l) :
    q.Receives q'' := by
  obtain ⟨l', hl', hin⟩ := r.trace
  refine ⟨r.readings.trans hreadings, l' ++ l, ?_, ?_⟩
  · rw [htrace, hl', List.append_assoc]
  · intro e he
    rcases List.mem_append.mp he with he | he
    · exact hin e he
    · exact hl e he

theorem Tsf.Receives.same (r : q.Receives q') {q'' : Tsf} (hreadings : q''.readings = q'.readings)
    (htrace : q''.trace = q'.trace) : q.Receives q'' :=
  r.add hreadings.ge [] (by simp) (by rw [htrace, List.append_nil])

theorem Tsf.Receives.ring (r : q.Receives q') (now : ℤ) (skb : Skb) (ret : NetXmit) (k : Ring) :
    q.Receives (q'.afterRing now skb ret k) := by
  by_cases hret : ret = .success
  · refine r.add le_rfl [.stored now skb] ?_ (if_pos hret)
    intro e he
    rw [List.mem_singleton.mp he]
    trivial
  · exact r.same rfl (if_neg hret)

theorem Tsf.Receives.park (r : q.Receives q') (skb : Skb) : q.Receives (tsfPark skb q').2 :=
  r.same rfl (tsfPark_trace skb q')

theorem receives_segment (heq : tsfSegment K skb q = .ok (ret, q')) : q.Receives q' := by
  have hself : q.Receives q := ⟨le_rfl, [], by simp, by simp⟩
  rcases tsfSegment_cases heq with ⟨-, rfl⟩ | ⟨-, nb, q₁, hloop, rfl⟩
  · exact hself.same rfl rfl
  · have hbegin : q.Receives (q.beginSegments (K.skbGsoSegment skb)) := by
      refine hself.add le_rfl _ ?_ rfl
      intro e he
      obtain ⟨seg, -, rfl⟩ := List.mem_map.mp he
      trivial
    have hend := tsfSegmentLoop_rule (I := fun _ _ q₁ => q.Receives q₁) ?_ hbegin hloop
    · obtain ⟨p, b, hq⟩ := endSegments_eq q₁ skb (K.skbGsoSegment skb) nb
      rw [hq]
      exact hend.same rfl rfl
    · intro seg segs nb q₁ ret q₂ r hone
      have htick : q.Receives q₁.tick := r.add (Nat.le_succ _) [] (by simp) (by simp [Tsf.tick])
      rcases tsfSegmentOne_cases hone with ⟨-, k, -, rfl⟩ | ⟨-, -, rfl⟩
      · exact (htick.ring (q₁.now K) (markSegment seg) ret k).same rfl rfl
      · exact (htick.park (markSegment seg)).same rfl rfl

theorem receives_plain (heq : tsfPlain K skb q = .ok (ret, q')) : q.Receives q' := by
  have hself : q.Receives q := ⟨le_rfl, [], by simp, by simp⟩
  refine tsfPlain_rule (I := fun _ q₁ => q.Receives q₁) (J := fun q₁ => q.Receives q₁)
    ?_ ?_ ?_ ?_ ?_ heq
  · refine hself.add (Nat.le_succ _) [.offered skb] ?_ rfl
    intro e he
    rw [List.mem_singleton.mp he]
    trivial
  · intro toks q₁ p l k r _ _ _
    exact (r.ring (q.now K) p .success k).same rfl rfl
  · intro toks q₁ p l ret k r _ _ _ _
    exact (r.ring (q.now K) p ret k).same rfl rfl
  · intro toks q₁ ret k r _ _ _
    exact (r.ring (q.now K) skb ret k).same rfl rfl
  · intro toks q₁ expiry r _ _
    exact (r.park skb).same rfl rfl

theorem receives_bypass (skb : Skb) (q : Tsf) : q.Receives (tsfBypass skb q).2 := by
  have hself : q.Receives q := ⟨le_rfl, [], by simp, by simp⟩
  have hoffered : ∀ e ∈ [Event.offered skb], e.Incoming := by
    intro e he
    rw [List.mem_singleton.mp he]
    trivial
  rcases tsfBypass_cases skb q with hb | ⟨ret, -, hb⟩
  · rw [hb]
    exact hself.add le_rfl _ hoffered rfl
  · rw [hb]
    exact hself.add le_rfl _ hoffered rfl

theorem spaced_of_not_sent {e e' : Event} (h : ∀ t skb, e' ≠ .sent t skb) : e.Spaced e' := by
  cases e' with
  | sent t skb => exact absurd rfl (h t skb)
  | offered | stored | finished | bypassed => cases e <;> trivial

theorem paced_append {l l' : List Event} (h : ∀ e ∈ l', ∀ t skb, e ≠ .sent t skb) :
    Paced (l ++ l') ↔ Paced l := by
  refine ⟨fun hp => (List.pairwise_append.mp hp).1, fun hp => List.pairwise_append.mpr
    ⟨hp, ?_, fun e _ e' he' => spaced_of_not_sent (h e' he')⟩⟩
  exact List.pairwise_of_forall_mem_list fun e _ e' he' => spaced_of_not_sent (h e' he')

theorem paced_sent {l : List Event} {t : ℤ} :
    Paced (l ++ [.sent t skb]) ↔
      Paced l ∧ ∀ (now : ℤ) (sleepTime : ℕ), .finished now sleepTime ∈ l → now + sleepTime ≤ t := by
  unfold Paced
  rw [List.pairwise_append]
  constructor
  · rintro ⟨hl, -, hall⟩
    exact ⟨hl, fun now sleepTime he => hall _ he _ (List.mem_singleton_self _)⟩
  · rintro ⟨hl, hall⟩
    refine ⟨hl, List.pairwise_singleton _ _, fun e he e' he' => ?_⟩
    rw [List.mem_singleton.mp he']
    cases e with
    | finished now sleepTime => exact hall now sleepTime he
    | offered | stored | sent | bypassed => trivial

theorem Event.Incoming.not_sent {e : Event} (h : e.Incoming) (t : ℤ) (skb : Skb) :
    e ≠ .sent t skb := by
  rintro rfl
  exact h

theorem Event.Incoming.not_finished {e : Event} (h : e.Incoming) (now : ℤ) (sleepTime : ℕ) :
    e ≠ .finished now sleepTime := by
  rintro rfl
  exact h

theorem Tsf.Receives.paced (r : q.Receives q') : Paced q'.trace ↔ Paced q.trace := by
  obtain ⟨l, hl, hin⟩ := r.trace
  rw [hl]
  exact paced_append fun e he => (hin e he).not_sent

/-- What is known in every state: the short pauses are over. -/
structure Waited (K : Kernel) (q : Tsf) : Prop where
  ring : RingInv q.kfifo
  short : ∀ (now : ℤ) (sleepTime : ℕ), .finished now sleepTime ∈ q.trace →
    sleepTime ≤ 1000000 → now + sleepTime ≤ q.now K

theorem Waited.receives (w : Waited K q) (r : q.Receives q') (hring : RingInv q'.kfifo) :
    Waited K q' := by
  obtain ⟨l, hl, hin⟩ := r.trace
  refine ⟨hring, fun now sleepTime he hle => ?_⟩
  rw [hl] at he
  rcases List.mem_append.mp he with he | he
  · exact (w.short now sleepTime he hle).trans (K.ktime_mono r.readings)
  · exact absurd rfl ((hin _ he).not_finished now sleepTime)

theorem Waited.dequeue (w : Waited K q) {o : Option Skb} (hcase : DequeueCase K q o q')
    (hring : RingInv q'.kfifo) : Waited K q' := by
  have hshort : ∀ (n : ℕ) (now : ℤ) (sleepTime : ℕ), q.readings ≤ n →
      .finished now sleepTime ∈ q.trace → sleepTime ≤ 1000000 → now + sleepTime ≤ K.ktime n :=
    fun n now sleepTime hn he hle => (w.short now sleepTime he hle).trans (K.ktime_mono hn)
  have hnext : q.readings ≤ q.readings + 1 := Nat.le_succ _
  refine ⟨hring, fun now sleepTime he hle => ?_⟩
  cases hcase with
  | bypass =>
    refine hshort _ now sleepTime hnext ?_ hle
    simpa using he
  | sent =>
    refine hshort _ now sleepTime hnext ?_ hle
    simpa using he
  | nothing => exact hshort _ now sleepTime hnext he hle
  | finished w n _ _ _ htime =>
    rcases List.mem_append.mp he with he | he
    · exact hshort (q.readings + 1 + n + 1) now sleepTime (by omega) he hle
    · obtain ⟨rfl, rfl⟩ := Event.finished.inj (List.mem_singleton.mp he)
      exact (htime hle).trans (K.ktime_mono (Nat.le_succ _))

theorem Waited.step (w : Waited K q) {c : TsfCall} {a : TsfAnswer}
    (heq : tsfStep K q c = .ok (a, q')) : Waited K q' := by
  have hring : RingInv q'.kfifo := tsfStep_ring (fun k c a k' hk he => hk.of_step he) w.ring heq
  cases tsfStep_cases heq with
  | @bypass skb => exact w.receives (receives_bypass skb q) hring
  | segments _ hseg => exact w.receives (receives_segment hseg) hring
  | plain _ _ hplain => exact w.receives (receives_plain hplain) hring
  | dequeue hcase => exact w.dequeue hcase hring

theorem Waited.not_sends (w : Waited K q) {k : Ring}
    (hk : kfifoDequeue q.kfifo = .ok (none, k)) : ¬q.Sends := by
  rintro ⟨-, hstored, hpaid⟩
  rcases (w.ring.dequeue_none hk).2 with hempty | howes
  · exact hstored hempty
  · exact hpaid howes

theorem Waited.paced_iff (w : Waited K q) (hp : Paced q.trace) {c : TsfCall} {a : TsfAnswer}
    (heq : tsfStep K q c = .ok (a, q')) : Paced q'.trace ↔ q.Rested K c := by
  cases tsfStep_cases heq with
  | @bypass skb => exact iff_of_true ((receives_bypass skb q).paced.mpr hp) trivial
  | segments hc hseg =>
    refine iff_of_true ((receives_segment hseg).paced.mpr hp) ?_
    rcases hc with rfl | ⟨rfl, -⟩
    · trivial
    · trivial
  | plain _ _ hplain => exact iff_of_true ((receives_plain hplain).paced.mpr hp) trivial
  | dequeue hcase =>
    cases hcase with
    | bypass hhead =>
      refine iff_of_true ((paced_append (by simp)).mpr hp) fun hs => ?_
      rw [hs.1] at hhead
      cases hhead
    | @sent skb k hhead hk =>
      obtain ⟨hstored, howes⟩ := w.ring.dequeue_some hk
      have hsends : q.Sends := ⟨hhead, by simp [hstored], howes⟩
      refine paced_sent.trans ⟨fun hall _ now sleepTime he _ => hall.2 now sleepTime he, ?_⟩
      intro hrest
      refine ⟨hp, fun now sleepTime he => ?_⟩
      rcases le_or_gt sleepTime 1000000 with hle | hlt
      · exact w.short now sleepTime he hle
      · exact hrest hsends now sleepTime he hlt
    | nothing hhead hk =>
      exact iff_of_true hp fun hs => absurd hs (w.not_sends hk)
    | finished _ _ hhead hk =>
      exact iff_of_true ((paced_append (by simp)).mpr hp) fun hs => absurd hs (w.not_sends hk)

theorem paced_back {c : TsfCall} {a : TsfAnswer} (heq : tsfStep K q c = .ok (a, q'))
    (hp : Paced q'.trace) : Paced q.trace := by
  cases tsfStep_cases heq with
  | @bypass skb => exact (receives_bypass skb q).paced.mp hp
  | segments _ hseg => exact (receives_segment hseg).paced.mp hp
  | plain _ _ hplain => exact (receives_plain hplain).paced.mp hp
  | dequeue hcase =>
    cases hcase with
    | bypass => exact (List.pairwise_append.mp hp).1
    | sent => exact (List.pairwise_append.mp hp).1
    | nothing => exact hp
    | finished => exact (List.pairwise_append.mp hp).1

/-- A run keeps the pauses, long and short, exactly when none of its calls takes a packet
from the ring during a long one. -/
theorem paced_iff_rested {opt : Option TsfEnv} (hinit : tsfInit K opt = (0, q₀))
    {h : TsfHistory} (run : Run (tsfStep K) q₀ h q) :
    Paced q.trace ↔ GuardedRun (tsfStep K) (Tsf.Rested K) q₀ h q := by
  have hfresh := tsfInit_fresh hinit
  refine iff_guarded (I := fun q => Paced q.trace) (J := Waited K) ?_ ?_ ?_ ?_ ?_ run
  · rw [hfresh.trace]
    exact List.Pairwise.nil
  · refine ⟨hfresh.ring.inv, ?_⟩
    rw [hfresh.trace]
    simp
  · exact fun q c a q' w heq => w.step heq
  · exact fun q c a q' heq hp => paced_back heq hp
  · exact fun q c a q' w hp heq => w.paced_iff hp heq

/-- A kernel whose clock is 5 ms, then always 6 ms, with a device for packets of 60000 bytes and
a rate with the largest overhead. -/
def jumboSample : Kernel :=
  { kernelSample 0 [skbSample 1 60000, skbSample 2 60000] with
    ktime := fun n => if n < 1 then 5000000 else 6000000
    ktime_mono := by
      intro a b hab
      dsimp only
      split_ifs <;> omega
    ktime_nonneg := by split_ifs <;> omega
    pschedRatecfgPrecompute := fun _ rate64 =>
      ⟨rate64, fun len => (len + 65535) * 1000000000 / rate64⟩
    devMtu := 65535 }

theorem paced_iff_rested_sample :
    ∃ h q, q.trace = [.offered (skbSample 1 60000), .offered (skbSample 2 60000),
        .stored 5000000 (skbSample 1 60000), .stored 6000000 (skbSample 2 60000),
        .sent 6000000 (skbSample 1 60000), .finished 6000000 1046125] ∧
      (Paced q.trace ↔ GuardedRun (tsfStep jumboSample) (Tsf.Rested jumboSample)
        (tsfSample jumboSample 120000000) h q) := by
  obtain ⟨h, q, run, hq⟩ := exists_run_of_exec Tsf.trace
    (b := [.offered (skbSample 1 60000), .offered (skbSample 2 60000),
      .stored 5000000 (skbSample 1 60000), .stored 6000000 (skbSample 2 60000),
      .sent 6000000 (skbSample 1 60000), .finished 6000000 1046125])
    (show (exec (tsfStep jumboSample) (tsfSample jumboSample 120000000)
      [.enqueue (skbSample 9 120000), .dequeue 0, .dequeue 0]).toOption.map _ = _ by decide +kernel)
  exact ⟨h, q, hq, paced_iff_rested (tsfSample_init _ _) run⟩

/-- One more call sends the second segment 1 ms too early. -/
theorem long_pause_ignored :
    tsfInit jumboSample (some (envSample 120000000)) = (0, tsfSample jumboSample 120000000) ∧
      ∃ h q, Run (tsfStep jumboSample) (tsfSample jumboSample 120000000) h q ∧
        q.trace = [.offered (skbSample 1 60000), .offered (skbSample 2 60000),
          .stored 5000000 (skbSample 1 60000), .stored 6000000 (skbSample 2 60000),
          .sent 6000000 (skbSample 1 60000), .finished 6000000 1046125,
          .sent 6000000 (skbSample 2 60000)] ∧ ¬Paced q.trace := by
  obtain ⟨h, q, run, hq⟩ := exists_run_of_exec Tsf.trace
    (b := [.offered (skbSample 1 60000), .offered (skbSample 2 60000),
      .stored 5000000 (skbSample 1 60000), .stored 6000000 (skbSample 2 60000),
      .sent 6000000 (skbSample 1 60000), .finished 6000000 1046125] ++
      [.sent 6000000 (skbSample 2 60000)])
    (show (exec (tsfStep jumboSample) (tsfSample jumboSample 120000000)
      [.enqueue (skbSample 9 120000), .dequeue 0, .dequeue 0, .dequeue 0]).toOption.map _ = _ by
        decide +kernel)
  refine ⟨tsfSample_init _ _, h, q, run, hq, fun hp => ?_⟩
  rw [hq] at hp
  have := (paced_sent.mp hp).2 6000000 1046125 (by simp)
  omega

end MeasurementLimiter
