import MeasurementLimiter.TsfSpec
import MeasurementLimiter.TokenBucket

namespace MeasurementLimiter

open Runs TokenBucket

variable {K : Kernel} {now s t : ℤ} {skb : Skb} {ret : NetXmit} {q₀ q q' : Tsf}

def Event.storedTime (rate : PschedRatecfg) (s t : ℤ) : Event → ℤ
  | .stored now skb => if s ≤ now ∧ now ≤ t then rate.l2tNs skb.pktLen else 0
  | _ => 0

def storedTime (rate : PschedRatecfg) (s t : ℤ) (trace : List Event) : ℤ :=
  (trace.map (Event.storedTime rate s t)).sum

theorem storedTime_append (rate : PschedRatecfg) (s t : ℤ) (l l' : List Event) :
    storedTime rate s t (l ++ l') = storedTime rate s t l + storedTime rate s t l' := by
  simp [storedTime]

theorem storedTime_eq_zero (rate : PschedRatecfg) {l : List Event}
    (hl : ∀ e ∈ l, ∀ now skb, e ≠ .stored now skb) : storedTime rate s t l = 0 := by
  refine List.sum_eq_zero fun x hx => ?_
  obtain ⟨e, he, rfl⟩ := List.mem_map.mp hx
  cases e with
  | stored now skb => exact absurd rfl (hl _ he now skb)
  | offered | finished | sent | bypassed => rfl

def Tsf.bucket (q : Tsf) : Bucket ℤ := ⟨q.tokens, q.tC⟩

/-- The bucket went from that of `q₀` to that of `q` by withdrawals that cover what the ring
stored. -/
structure Conforms (q₀ q : Tsf) : Prop where
  buffer : q.buffer = q₀.buffer
  rate : q.rate = q₀.rate
  log : 0 ≤ q₀.buffer → ∃ log, Spends q₀.buffer q₀.bucket log q.bucket ∧
    ∀ s t, spent s t log = storedTime q₀.rate s t q.trace

theorem Conforms.refl (htrace : q₀.trace = []) : Conforms q₀ q₀ := by
  refine ⟨rfl, rfl, fun _ => ⟨[], .nil, fun s t => ?_⟩⟩
  rw [htrace]
  rfl

theorem Conforms.frame (c : Conforms q₀ q) (l : List Event)
    (hl : ∀ e ∈ l, ∀ now skb, e ≠ .stored now skb) (htrace : q'.trace = q.trace ++ l)
    (hbuffer : q'.buffer = q.buffer) (hrate : q'.rate = q.rate) (hbucket : q'.bucket = q.bucket) :
    Conforms q₀ q' := by
  refine ⟨hbuffer.trans c.buffer, hrate.trans c.rate, fun hdepth => ?_⟩
  obtain ⟨log, hspends, hspent⟩ := c.log hdepth
  refine ⟨log, hbucket ▸ hspends, fun s t => ?_⟩
  rw [htrace, storedTime_append, storedTime_eq_zero q₀.rate hl, add_zero]
  exact hspent s t

theorem Conforms.charge (c : Conforms q₀ q) (hnow : q.tC ≤ now) {toks : ℤ}
    (hlevel : 0 ≤ q₀.buffer → q.bucket.level q.buffer now - q.rate.l2tNs skb.pktLen = toks)
    (hpos : 0 ≤ toks) (ret : NetXmit) (k : Ring) :
    Conforms q₀ ((q.afterRing now skb ret k).charged now toks) := by
  refine ⟨c.buffer, c.rate, fun hdepth => ?_⟩
  have hlevel := hlevel hdepth
  obtain ⟨log, hspends, hspent⟩ := c.log hdepth
  have hbucket : ((q.afterRing now skb ret k).charged now toks).bucket =
      q.bucket.take q₀.buffer now (q.rate.l2tNs skb.pktLen) := by
    rw [Bucket.take, ← c.buffer, hlevel]
    rfl
  have hle : (q.rate.l2tNs skb.pktLen : ℤ) ≤ q.bucket.level q₀.buffer now := by
    rw [← c.buffer]
    omega
  refine ⟨log ++ [(now, if ret = .success then (q.rate.l2tNs skb.pktLen : ℤ) else 0)], ?_,
    fun s t => ?_⟩
  · rw [hbucket]
    refine .snoc hspends hnow ?_ ?_ hle
    · split_ifs
      · exact Int.natCast_nonneg _
      · exact le_rfl
    · split_ifs
      · exact le_rfl
      · exact Int.natCast_nonneg _
  · rw [spent_append, hspent, spent_singleton, c.rate]
    change _ = storedTime q₀.rate s t (if ret = .success then q.trace ++ [.stored now skb] else q.trace)
    by_cases hret : ret = .success
    · rw [if_pos hret, if_pos hret, storedTime_append]
      simp [storedTime, Event.storedTime]
    · rw [if_neg hret, if_neg hret, ite_self, add_zero]

theorem capTokens_eq (buffer toks : ℤ) : capTokens buffer toks = min buffer toks := by
  unfold capTokens
  split_ifs <;> omega

theorem capTokens_le (buffer toks : ℤ) : capTokens buffer toks ≤ buffer := by
  rw [capTokens_eq]
  exact min_le_left _ _

theorem segmentToks_eq (q : Tsf) (now : ℤ) (seg : Skb) :
    segmentToks q now seg = q.bucket.level q.buffer now - q.rate.l2tNs (markSegment seg).pktLen := by
  rw [segmentToks, capTokens_eq, add_comm]
  rfl

theorem enqueueToks_eq (hbuffer : 0 ≤ q.buffer) (hnow : q.tC ≤ now) :
    enqueueToks q now = q.bucket.level q.buffer now := by
  rw [enqueueToks, capTokens_eq, minU64_of_nonneg (by omega) hbuffer, add_comm]
  rfl

theorem level_charged {toks : ℤ} (hbuffer : 0 ≤ q.buffer) (hle : toks ≤ q.buffer) :
    (q.charged now toks).bucket.level q.buffer now = toks := by
  have h : min (now - now) q.buffer = 0 := by omega
  change min q.buffer (toks + min (now - now) q.buffer) = toks
  omega

/-- What the invariant of a run says: the check-point is not in the future. -/
structure Metered (K : Kernel) (q₀ q : Tsf) : Prop extends Conforms q₀ q where
  past : q.tC ≤ q.now K

theorem now_le_tick (K : Kernel) (q : Tsf) : q.now K ≤ q.tick.now K :=
  K.ktime_mono (Nat.le_succ q.readings)

/-- In the loop of `tsf_enqueue` the balance is the level of the bucket. -/
structure Balanced (K : Kernel) (q₀ : Tsf) (n : ℕ) (toks : ℤ) (q : Tsf) : Prop
    extends Conforms q₀ q where
  past : q.tC ≤ K.ktime n
  readings : q.readings = n + 1
  level : 0 ≤ q₀.buffer → q.bucket.level q.buffer (K.ktime n) = toks

theorem Balanced.charge {n : ℕ} {toks : ℤ} (b : Balanced K q₀ n toks q)
    (hpos : 0 ≤ toks - q.rate.l2tNs skb.pktLen) (ret : NetXmit) (k : Ring) :
    Balanced K q₀ n (toks - q.rate.l2tNs skb.pktLen)
      ((q.afterRing (K.ktime n) skb ret k).charged (K.ktime n) (toks - q.rate.l2tNs skb.pktLen)) := by
  have hcharged := b.toConforms.charge b.past (fun hdepth => by rw [b.level hdepth]) hpos ret k
  refine ⟨hcharged, le_rfl, b.readings, fun hdepth => ?_⟩
  have hle : toks ≤ q.buffer := b.level hdepth ▸ Bucket.level_le_depth
  exact level_charged (q := q.afterRing (K.ktime n) skb ret k) (b.buffer ▸ hdepth) (by
    change toks - _ ≤ q.buffer
    omega)

theorem Metered.park (m : Metered K q₀ q) (skb : Skb) : Metered K q₀ (tsfPark skb q).2 :=
  ⟨⟨m.buffer, m.rate, m.log⟩, m.past⟩

theorem Metered.plain (m : Metered K q₀ q) (heq : tsfPlain K skb q = .ok (ret, q')) :
    Metered K q₀ q' := by
  have hmono : K.ktime q.readings ≤ K.ktime (q.readings + 1) := K.ktime_mono (Nat.le_succ _)
  have hend : ∀ toks q₁, Balanced K q₀ q.readings toks q₁ → Metered K q₀ q₁ := by
    intro toks q₁ b
    refine ⟨b.toConforms, ?_⟩
    rw [Tsf.now, b.readings]
    exact b.past.trans hmono
  refine tsfPlain_rule (I := Balanced K q₀ q.readings) (J := Metered K q₀) ?_ ?_ ?_ ?_ ?_ heq
  · refine ⟨m.toConforms.frame [.offered skb] (by simp) rfl rfl rfl rfl, m.past, rfl, fun hdepth => ?_⟩
    exact (enqueueToks_eq (by rw [m.buffer]; exact hdepth) m.past).symm
  · intro toks q₁ p l k b _ hpos _
    have b' := b.charge hpos .success k
    exact ⟨⟨b'.buffer, b'.rate, b'.log⟩, b'.past, b'.readings, b'.level⟩
  · intro toks q₁ p l ret k b _ _ hne _
    have m' := hend toks q₁ b
    have htrace : (q₁.lost (q.now K) p l ret k).trace = q₁.trace ++ [] := by
      rw [lost_trace hne, List.append_nil]
    exact ⟨m'.toConforms.frame [] (by simp) htrace rfl rfl rfl, m'.past⟩
  · intro toks q₁ ret k b _ hpos _
    have b' := b.charge hpos ret k
    have m' := hend _ _ b'
    exact ⟨⟨m'.buffer, m'.rate, m'.log⟩, m'.past⟩
  · intro toks q₁ expiry b _ _
    have m' := (hend toks q₁ b).park skb
    exact ⟨⟨m'.buffer, m'.rate, m'.log⟩, m'.past⟩

theorem Metered.tick (m : Metered K q₀ q) : Metered K q₀ q.tick :=
  ⟨⟨m.buffer, m.rate, m.log⟩, m.past.trans (now_le_tick K q)⟩

theorem Metered.segmentOne (m : Metered K q₀ q) (heq : tsfSegmentOne K skb q = .ok (ret, q')) :
    Metered K q₀ q' := by
  rcases tsfSegmentOne_cases heq with ⟨hpos, k, -, rfl⟩ | ⟨-, -, rfl⟩
  · have hlevel := segmentToks_eq q (q.now K) skb
    have c : Conforms q₀ ((q.tick.afterRing (q.now K) (markSegment skb) ret k).charged (q.now K)
        (segmentToks q (q.now K) skb)) :=
      m.tick.toConforms.charge m.past (fun _ => hlevel.symm) hpos ret k
    exact ⟨⟨c.buffer, c.rate, c.log⟩, now_le_tick K q⟩
  · have m' := m.tick.park (markSegment skb)
    exact ⟨⟨m'.buffer, m'.rate, m'.log⟩, m'.past⟩

theorem Metered.segment (m : Metered K q₀ q) (heq : tsfSegment K skb q = .ok (ret, q')) :
    Metered K q₀ q' := by
  rcases tsfSegment_cases heq with ⟨-, rfl⟩ | ⟨-, nb, q₁, hloop, rfl⟩
  · exact ⟨⟨m.buffer, m.rate, m.log⟩, m.past⟩
  · have hbegin : Metered K q₀ (q.beginSegments (K.skbGsoSegment skb)) :=
      ⟨m.toConforms.frame _ (by simp) rfl rfl rfl rfl, m.past⟩
    have hend := tsfSegmentLoop_rule (I := fun _ _ q => Metered K q₀ q)
      (fun seg _ _ q ret q' hm hone => hm.segmentOne hone) hbegin hloop
    obtain ⟨p, b, hq⟩ := endSegments_eq q₁ skb (K.skbGsoSegment skb) nb
    rw [hq]
    exact ⟨⟨hend.buffer, hend.rate, hend.log⟩, hend.past⟩

theorem Metered.dequeue (m : Metered K q₀ q) {o : Option Skb} (hcase : DequeueCase K q o q') :
    Metered K q₀ q' := by
  have hpast : ∀ n, q.readings ≤ n → q.tC ≤ K.ktime n := fun n hn =>
    m.past.trans (K.ktime_mono hn)
  have htick := hpast (q.readings + 1) (Nat.le_succ _)
  cases hcase with
  | bypass => exact ⟨m.toConforms.frame [_] (by simp) rfl rfl rfl rfl, htick⟩
  | sent => exact ⟨m.toConforms.frame [_] (by simp) rfl rfl rfl rfl, htick⟩
  | nothing => exact ⟨⟨m.buffer, m.rate, m.log⟩, htick⟩
  | finished w n =>
    exact ⟨m.toConforms.frame [_] (by simp) rfl rfl rfl rfl,
      hpast (q.readings + 1 + n + 1) (by omega)⟩

theorem Metered.step (m : Metered K q₀ q) {c : TsfCall} {a : TsfAnswer}
    (heq : tsfStep K q c = .ok (a, q')) : Metered K q₀ q' := by
  cases tsfStep_cases heq with
  | @bypass skb =>
    rcases tsfBypass_cases skb q with hb | ⟨ret, -, hb⟩
    · rw [hb]
      exact ⟨m.toConforms.frame [_] (by simp) rfl rfl rfl rfl, m.past⟩
    · rw [hb]
      exact ⟨m.toConforms.frame [_] (by simp) rfl rfl rfl rfl, m.past⟩
  | segments _ hseg => exact m.segment hseg
  | plain _ _ hplain => exact m.plain hplain
  | dequeue hcase => exact m.dequeue hcase

theorem Metered.run (htrace : q₀.trace = []) (hpast : q₀.tC ≤ q₀.now K)
    {h : TsfHistory} (run : Run (tsfStep K) q₀ h q) : Metered K q₀ q :=
  run.keeps (I := Metered K q₀) ⟨.refl htrace, hpast⟩ fun _ _ _ _ m _ heq => m.step heq

theorem Conforms.valid (c : Conforms q₀ q) (hvalid : q₀.bucket.Valid q₀.buffer) :
    q.bucket.Valid q₀.buffer := by
  obtain ⟨log, hspends, -⟩ := c.log (hvalid.nonneg.trans hvalid.le_depth)
  exact hspends.valid hvalid

/-- In every run the tokens stay within the depth of the bucket, and in every window the
ring stores at most the depth and the length of the window. -/
theorem token_bucket_conformance (hbuffer : 0 ≤ q₀.buffer) (hnonneg : 0 ≤ q₀.tokens)
    (hle : q₀.tokens ≤ q₀.buffer) (hpast : q₀.tC ≤ q₀.now K) (htrace : q₀.trace = [])
    {h : TsfHistory} (run : Run (tsfStep K) q₀ h q) :
    0 ≤ q.tokens ∧ q.tokens ≤ q₀.buffer ∧
      ∀ s t, s ≤ t → storedTime q₀.rate s t q.trace ≤ q₀.buffer + (t - s) := by
  have m := Metered.run htrace hpast run
  have hvalid : q₀.bucket.Valid q₀.buffer := ⟨hnonneg, hle⟩
  have hvalid' := m.valid hvalid
  refine ⟨hvalid'.nonneg, hvalid'.le_depth, fun s t hst => ?_⟩
  obtain ⟨log, hspends, hspent⟩ := m.log hbuffer
  rw [← hspent s t]
  exact hspends.spent_le hvalid hbuffer hst

theorem token_bucket_conformance_sample :
    ∃ q : Tsf, q.trace = [.offered (skbSample 1 1400), .offered (skbSample 2 500),
        .stored 1000 (skbSample 2 500)] ∧ q.tokens = 500 ∧
      ∀ s t, s ≤ t →
        storedTime (tsfSample (pairSample 3 1400 500) 1000000000).rate
          s t q.trace ≤ 10000000 + (t - s) := by
  obtain ⟨h, q, run, hq⟩ := exists_run_of_exec (fun q : Tsf => (q.trace, q.tokens))
    (b := ([.offered (skbSample 1 1400), .offered (skbSample 2 500),
      .stored 1000 (skbSample 2 500)], 500))
    (show (exec (tsfStep (pairSample 3 1400 500))
      (tsfSample (pairSample 3 1400 500) 1000000000)
      [.enqueue (skbSample 9 2800)]).toOption.map _ = _ by decide +kernel)
  obtain ⟨htrace, htokens⟩ := Prod.mk.inj hq
  have hbuffer : (tsfSample (pairSample 3 1400 500) 1000000000).buffer = 10000000 := by
    decide +kernel
  have hle := (token_bucket_conformance (by decide +kernel) le_rfl (by decide +kernel)
    (by decide +kernel) rfl run).2.2
  rw [hbuffer] at hle
  exact ⟨q, htrace, htokens, hle⟩

end MeasurementLimiter
