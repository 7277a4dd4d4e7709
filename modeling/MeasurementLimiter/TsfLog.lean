import MeasurementLimiter.TsfPacing

namespace MeasurementLimiter

open Runs

variable {K : Kernel} {τ : ℤ} {skb : Skb} {ret : NetXmit} {k : Ring} {l : List Event} {q₀ q q' : Tsf}

def Event.Elsewhere : Event → Prop
  | .offered _ | .bypassed _ _ => True
  | _ => False

/-- `I` is kept by each call on the ring together with the event that the scheduler records
of it at the time `τ`, and by the passing of time. -/
structure Logged (I : ℤ → Ring → List Event → Prop) : Prop where
  ring : ∀ {τ k l}, I τ k l → RingInv k
  later : ∀ {τ τ' k l}, τ ≤ τ' → I τ k l → I τ' k l
  elsewhere : ∀ {τ k l} (e : Event), I τ k l → e.Elsewhere → I τ k (l ++ [e])
  stored : ∀ {τ k k' l skb}, I τ k l → kfifoEnqueue (some skb) k = .ok (.success, k') →
    I τ k' (l ++ [.stored τ skb])
  sent : ∀ {τ k k' l skb}, I τ k l → kfifoDequeue k = .ok (some skb, k') →
    I τ k' (l ++ [.sent τ skb])
  nothing : ∀ {τ k k' l}, I τ k l → kfifoDequeue k = .ok (none, k') → I τ k' l
  finished : ∀ {τ k l}, I τ k l → k.Owes →
    I τ (k.modify k.pread kfifoFinishNode) (l ++ [.finished τ (k.node k.pread).sleepTime])

namespace Logged

variable {I : ℤ → Ring → List Event → Prop}

theorem offered (hI : Logged I) (h : I τ k l) (f : Skb → Skb) (segs : List Skb) :
    I τ k (l ++ segs.map fun seg => .offered (f seg)) := by
  induction segs generalizing l with
  | nil => simpa using h
  | cons seg segs ih =>
    have hone := ih (hI.elsewhere (.offered (f seg)) h trivial)
    rwa [List.append_assoc] at hone

theorem afterRing (hI : Logged I) (h : I τ q.kfifo q.trace)
    (heq : kfifoEnqueue (some skb) q.kfifo = .ok (ret, k)) :
    I τ (q.afterRing τ skb ret k).kfifo (q.afterRing τ skb ret k).trace := by
  rcases (hI.ring h).enqueue_stored heq with ⟨rfl, -⟩ | ⟨rfl, rfl⟩
  · exact hI.stored h heq
  · exact h

theorem plain (hI : Logged I) (h : I (q.now K) q.kfifo q.trace)
    (heq : tsfPlain K skb q = .ok (ret, q')) : I (q.now K) q'.kfifo q'.trace := by
  refine tsfPlain_rule (I := fun _ q₁ => I (q.now K) q₁.kfifo q₁.trace)
    (J := fun q₁ => I (q.now K) q₁.kfifo q₁.trace) ?_ ?_ ?_ ?_ ?_ heq
  · exact hI.elsewhere (.offered skb) h trivial
  · intro toks q₁ p l k h₁ _ _ hk
    exact hI.afterRing (q := q₁.withQueue l) h₁ hk
  · intro toks q₁ p l ret k h₁ _ _ _ hk
    exact hI.afterRing (q := q₁.withQueue l) h₁ hk
  · intro toks q₁ ret k h₁ _ _ hk
    exact hI.afterRing h₁ hk
  · intro toks q₁ expiry h₁ _ _
    exact h₁

theorem segment (hI : Logged I) (h : I (q.now K) q.kfifo q.trace)
    (heq : tsfSegment K skb q = .ok (ret, q')) : I (q'.now K) q'.kfifo q'.trace := by
  rcases tsfSegment_cases heq with ⟨-, rfl⟩ | ⟨-, nb, q₁, hloop, rfl⟩
  · exact h
  · have hbegin : I ((q.beginSegments (K.skbGsoSegment skb)).now K)
        (q.beginSegments (K.skbGsoSegment skb)).kfifo (q.beginSegments (K.skbGsoSegment skb)).trace :=
      hI.offered h markSegment (K.skbGsoSegment skb)
    have hend := tsfSegmentLoop_rule (I := fun _ _ q => I (q.now K) q.kfifo q.trace) ?_ hbegin hloop
    · obtain ⟨p, b, hq⟩ := endSegments_eq q₁ skb (K.skbGsoSegment skb) nb
      rw [hq]
      exact hend
    · intro seg segs nb q₁ ret q₂ h₁ hone
      have htick : q₁.now K ≤ q₁.tick.now K := now_le_tick K q₁
      rcases tsfSegmentOne_cases hone with ⟨-, k, hk, rfl⟩ | ⟨-, -, rfl⟩
      · exact hI.later htick (hI.afterRing (q := q₁.tick) h₁ hk)
      · exact hI.later htick h₁

theorem step (hI : Logged I) (h : I (q.now K) q.kfifo q.trace) {c : TsfCall} {a : TsfAnswer}
    (heq : tsfStep K q c = .ok (a, q')) : I (q'.now K) q'.kfifo q'.trace := by
  have htick : q.now K ≤ q.tick.now K := now_le_tick K q
  cases tsfStep_cases heq with
  | @bypass skb =>
    have hoffered := hI.elsewhere (.offered skb) h trivial
    rcases tsfBypass_cases skb q with hb | ⟨ret, -, hb⟩
    · rw [hb]
      exact hoffered
    · rw [hb]
      exact hoffered
  | segments _ hseg => exact hI.segment h hseg
  | plain _ _ hplain =>
    exact hI.later (K.ktime_mono (receives_plain hplain).readings) (hI.plain h hplain)
  | dequeue hcase =>
    cases hcase with
    | @bypass skb => exact hI.later htick (hI.elsewhere (.bypassed (q.now K) skb) h trivial)
    | sent _ hk => exact hI.later htick (hI.sent h hk)
    | nothing _ hk => exact hI.later htick (hI.nothing h hk)
    | finished w n _ hk howes =>
      have hlater : q.readings ≤ q.readings + 1 + n + 1 := by omega
      exact hI.later (K.ktime_mono hlater) (hI.finished (hI.nothing h hk) howes)

theorem run (hI : Logged I) (h₀ : I (q₀.now K) q₀.kfifo q₀.trace) {h : TsfHistory}
    (run : Run (tsfStep K) q₀ h q) : I (q.now K) q.kfifo q.trace :=
  run.keeps (I := fun q => I (q.now K) q.kfifo q.trace) h₀ fun _ _ _ _ h _ heq => hI.step h heq

end Logged

end MeasurementLimiter
