import MeasurementLimiter.TsfInit

namespace MeasurementLimiter

variable {K : Kernel} {now toks toks2 : ℤ} {skb : Skb} {ret : NetXmit} {q q' : Tsf}

def Tsf.withQueue (q : Tsf) (l : List Skb) : Tsf := { q with qdisc := { q.qdisc with skbs := l } }

def Tsf.charged (q : Tsf) (now toks : ℤ) : Tsf := { q with tC := now, tokens := toks }

theorem tsfRing_ok (h : tsfRing now skb q = .ok (ret, q')) :
    ∃ k, kfifoEnqueue (some skb) q.kfifo = .ok (ret, k) ∧ q' = q.afterRing now skb ret k := by
  unfold tsfRing at h
  split at h
  · cases h
  · rename_i ret' k hk
    obtain ⟨rfl, rfl⟩ := Prod.mk.inj (Except.ok.inj h)
    exact ⟨k, hk, rfl⟩

theorem tsfPark_cases (skb : Skb) (q : Tsf) :
    (q.qdisc.verdict q.qdisc.skbs skb = .success ∧
      tsfPark skb q = (.success, q.withQueue (q.qdisc.skbs ++ [skb]))) ∨
    ∃ ret, q.qdisc.verdict q.qdisc.skbs skb = ret ∧ ret ≠ .success ∧
      tsfPark skb q = (ret, { q with toFree := skb :: q.toFree }) := by
  unfold tsfPark qdiscEnqueue
  cases hv : q.qdisc.verdict q.qdisc.skbs skb with
  | success => exact .inl ⟨rfl, rfl⟩
  | drop => exact .inr ⟨_, rfl, by decide, rfl⟩
  | cn => exact .inr ⟨_, rfl, by decide, rfl⟩

theorem tsfPark_skbs (skb : Skb) (q : Tsf) :
    ∃ l, (tsfPark skb q).2.qdisc.skbs = q.qdisc.skbs ++ l := by
  rcases tsfPark_cases skb q with ⟨-, hp⟩ | ⟨ret, -, -, hp⟩
  · rw [hp]
    exact ⟨[skb], rfl⟩
  · rw [hp]
    exact ⟨[], (List.append_nil _).symm⟩

theorem tsfPark_eq (skb : Skb) (q : Tsf) : (tsfPark skb q).2 =
    { q with qdisc := (tsfPark skb q).2.qdisc, toFree := (tsfPark skb q).2.toFree } := rfl

@[simp] theorem tsfPark_kfifo (skb : Skb) (q : Tsf) : (tsfPark skb q).2.kfifo = q.kfifo := rfl
@[simp] theorem tsfPark_trace (skb : Skb) (q : Tsf) : (tsfPark skb q).2.trace = q.trace := rfl

/-- The state after the head `skb` of the inner queue, with `l` behind it, went to the
ring. -/
def Tsf.promoted (q : Tsf) (now toks : ℤ) (skb : Skb) (l : List Skb) (k : Ring) : Tsf :=
  { ((q.withQueue l).afterRing now skb .success k).charged now toks with
    backlog := q.backlog - skb.pktLen
    qlen := q.qlen - 1 }

def Tsf.lost (q : Tsf) (now : ℤ) (skb : Skb) (l : List Skb) (ret : NetXmit) (k : Ring) : Tsf :=
  ((q.withQueue l).afterRing now skb ret k).countDrop ret

theorem lost_trace {l : List Skb} {k : Ring} (h : ret ≠ .success) :
    (q.lost now skb l ret k).trace = q.trace := if_neg h

def tsfPromoteAll (now toks : ℤ) (q : Tsf) : Except Fault Promoted :=
  tsfPromote now q.qdisc.skbs toks (peekToks q toks) q.qdisc.skbs.head? q

theorem peekToks_cons {l : List Skb} (h : q.qdisc.skbs = skb :: l) (toks : ℤ) :
    peekToks q toks = toks - q.rate.l2tNs skb.pktLen := by
  simp [peekToks, h]

theorem peekToks_nil (h : q.qdisc.skbs = []) (toks : ℤ) : peekToks q toks = toks := by
  simp [peekToks, h]

theorem tsfPromoteAll_stop (h : peekToks q toks < 0) :
    tsfPromoteAll now toks q = .ok (.finished toks (peekToks q toks) q.qdisc.skbs.head? q) := by
  unfold tsfPromoteAll
  rw [tsfPromote.eq_def]
  exact if_neg (not_le.mpr h)

theorem tsfPromoteAll_null (h : q.qdisc.skbs = []) (htoks : 0 ≤ toks) :
    tsfPromoteAll now toks q = .error .nullSkb := by
  unfold tsfPromoteAll
  rw [peekToks_nil h, h, tsfPromote.eq_def]
  exact if_pos htoks

def tsfPromoteRest (now toks : ℤ) (q : Tsf) : Except Fault Promoted :=
  if q.qdisc.skbs = [] then .ok (.finished toks toks none q) else tsfPromoteAll now toks q

theorem tsfPromoteAll_cons {l : List Skb} (h : q.qdisc.skbs = skb :: l)
    (htoks : 0 ≤ toks - q.rate.l2tNs skb.pktLen) :
    tsfPromoteAll now toks q =
      match kfifoEnqueue (some skb) q.kfifo with
      | .error e => .error e
      | .ok (.success, k) => tsfPromoteRest now (toks - q.rate.l2tNs skb.pktLen)
          (q.promoted now (toks - q.rate.l2tNs skb.pktLen) skb l k)
      | .ok (ret, k) => .ok (.returned ret (q.lost now skb l ret k)) := by
  unfold tsfPromoteAll
  rw [peekToks_cons h, h, tsfPromote.eq_def]
  refine (if_pos htoks).trans ?_
  simp only [tsfRing]
  cases kfifoEnqueue (some skb) q.kfifo with
  | error e => rfl
  | ok r =>
    obtain ⟨ret, k⟩ := r
    cases ret with
    | success =>
      cases l with
      | nil => rfl
      | cons next l => rfl
    | drop => rfl
    | cn => rfl

/-- The rule of the loop.  An invariant `I` of the balance and the state that every promotion
keeps holds where the loop ends; or else it held when the ring refused the head of the
inner queue. -/
theorem tsfPromoteAll_rule {I : ℤ → Tsf → Prop}
    (hstep : ∀ toks q skb l k, I toks q → q.qdisc.skbs = skb :: l →
      0 ≤ toks - q.rate.l2tNs skb.pktLen → kfifoEnqueue (some skb) q.kfifo = .ok (.success, k) →
      I (toks - q.rate.l2tNs skb.pktLen)
        (q.promoted now (toks - q.rate.l2tNs skb.pktLen) skb l k))
    {r : Promoted} (h₀ : I toks q) (heq : tsfPromoteAll now toks q = .ok r) :
    (∃ toks' q', I toks' q' ∧ (peekToks q' toks' < 0 ∨ q'.qdisc.skbs = []) ∧
      r = .finished toks' (peekToks q' toks') q'.qdisc.skbs.head? q') ∨
    ∃ toks' q' skb l ret k, I toks' q' ∧ q'.qdisc.skbs = skb :: l ∧
      0 ≤ toks' - q'.rate.l2tNs skb.pktLen ∧ ret ≠ .success ∧
      kfifoEnqueue (some skb) q'.kfifo = .ok (ret, k) ∧
        r = .returned ret (q'.lost now skb l ret k) := by
  induction hl : q.qdisc.skbs generalizing q toks with
  | nil =>
    rcases lt_or_ge (peekToks q toks) 0 with hneg | hpos
    · rw [tsfPromoteAll_stop hneg] at heq
      exact .inl ⟨toks, q, h₀, .inl hneg, (Except.ok.inj heq).symm⟩
    · rw [peekToks_nil hl] at hpos
      rw [tsfPromoteAll_null hl hpos] at heq
      cases heq
  | cons skb l ih =>
    rcases lt_or_ge (peekToks q toks) 0 with hneg | hpos
    · rw [tsfPromoteAll_stop hneg] at heq
      exact .inl ⟨toks, q, h₀, .inl hneg, (Except.ok.inj heq).symm⟩
    · rw [peekToks_cons hl] at hpos
      rw [tsfPromoteAll_cons hl hpos] at heq
      split at heq
      · cases heq
      · rename_i k hk
        have hI := hstep toks q skb l k h₀ hl hpos hk
        unfold tsfPromoteRest at heq
        split_ifs at heq with hempty
        · refine .inl ⟨_, _, hI, .inr hempty, ?_⟩
          rw [peekToks_nil hempty, hempty]
          exact (Except.ok.inj heq).symm
        · exact ih hI heq rfl
      · rename_i ret k hne hk
        exact .inr ⟨toks, q, skb, l, ret, k, h₀, hl, hpos, hne, hk,
          (Except.ok.inj heq).symm⟩

def Tsf.waiting (q : Tsf) (expiry : ℤ) (len : ℕ) : Tsf :=
  { q with
    backlog := q.backlog + len, qlen := q.qlen + 1, overlimits := q.overlimits + 1
    watchdog := some expiry }

theorem tsfNew_park {preSkb : Option Skb} (h : ¬0 ≤ toks - q.rate.l2tNs skb.pktLen) :
    tsfNew now skb toks toks2 preSkb q = .ok (.success, (tsfPark skb q).2.waiting
      (now - if preSkb.isSome then toks2 else toks - q.rate.l2tNs skb.pktLen) skb.pktLen) :=
  if_neg h

theorem tsfNew_ring {preSkb : Option Skb} (h : 0 ≤ toks - q.rate.l2tNs skb.pktLen) :
    tsfNew now skb toks toks2 preSkb q =
      match kfifoEnqueue (some skb) q.kfifo with
      | .error e => .error e
      | .ok (ret, k) => .ok (ret, ((q.afterRing now skb ret k).charged now
          (toks - q.rate.l2tNs skb.pktLen)).countDrop ret) := by
  refine (if_pos h).trans ?_
  unfold tsfRing
  cases kfifoEnqueue (some skb) q.kfifo with
  | error e => rfl
  | ok r => rfl

/-- The new packet goes to the ring, and is charged whatever the ring answers; or it is
given to the inner queue, and counted whatever that answers. -/
theorem tsfNew_cases {preSkb : Option Skb} (h : tsfNew now skb toks toks2 preSkb q = .ok (ret, q')) :
    (0 ≤ toks - q.rate.l2tNs skb.pktLen ∧ ∃ k, kfifoEnqueue (some skb) q.kfifo = .ok (ret, k) ∧
      q' = ((q.afterRing now skb ret k).charged now (toks - q.rate.l2tNs skb.pktLen)).countDrop ret) ∨
    (toks - q.rate.l2tNs skb.pktLen < 0 ∧ ret = .success ∧ q' = (tsfPark skb q).2.waiting
      (now - if preSkb.isSome then toks2 else toks - q.rate.l2tNs skb.pktLen) skb.pktLen) := by
  by_cases hpos : 0 ≤ toks - q.rate.l2tNs skb.pktLen
  · rw [tsfNew_ring hpos] at h
    split at h
    · cases h
    · rename_i ret' k hk
      obtain ⟨rfl, rfl⟩ := Prod.mk.inj (Except.ok.inj h)
      exact .inl ⟨hpos, k, hk, rfl⟩
  · rw [tsfNew_park hpos] at h
    obtain ⟨rfl, rfl⟩ := Prod.mk.inj (Except.ok.inj h)
    exact .inr ⟨not_le.mp hpos, rfl, rfl⟩

def Tsf.begin (q : Tsf) (skb : Skb) : Tsf := { q.tick with trace := q.trace ++ [.offered skb] }

theorem tsfPlain_eq (K : Kernel) (skb : Skb) (q : Tsf) : tsfPlain K skb q =
    match tsfPromoteAll (q.now K) (enqueueToks q (q.now K)) (q.begin skb) with
    | .error e => .error e
    | .ok (.returned ret q) => .ok (ret, q)
    | .ok (.finished toks toks2 preSkb q') => tsfNew (q.now K) skb toks toks2 preSkb q' := rfl

/-- The rule of `tsf_enqueue` for a packet that is not segmented: `I` is an invariant of the
loop, and `J` follows from it for the verdict and the state in which the call returns. -/
theorem tsfPlain_outcome {I : ℤ → Tsf → Prop} {J : NetXmit → Tsf → Prop}
    (h₀ : I (enqueueToks q (q.now K)) (q.begin skb))
    (hpromote : ∀ toks q₁ p l k, I toks q₁ → q₁.qdisc.skbs = p :: l →
      0 ≤ toks - q₁.rate.l2tNs p.pktLen → kfifoEnqueue (some p) q₁.kfifo = .ok (.success, k) →
      I (toks - q₁.rate.l2tNs p.pktLen)
        (q₁.promoted (q.now K) (toks - q₁.rate.l2tNs p.pktLen) p l k))
    (hlost : ∀ toks q₁ p l ret k, I toks q₁ → q₁.qdisc.skbs = p :: l →
      0 ≤ toks - q₁.rate.l2tNs p.pktLen → ret ≠ .success →
      kfifoEnqueue (some p) q₁.kfifo = .ok (ret, k) → J ret (q₁.lost (q.now K) p l ret k))
    (hring : ∀ toks q₁ ret k, I toks q₁ → (peekToks q₁ toks < 0 ∨ q₁.qdisc.skbs = []) →
      0 ≤ toks - q₁.rate.l2tNs skb.pktLen → kfifoEnqueue (some skb) q₁.kfifo = .ok (ret, k) →
      J ret (((q₁.afterRing (q.now K) skb ret k).charged (q.now K)
        (toks - q₁.rate.l2tNs skb.pktLen)).countDrop ret))
    (hpark : ∀ toks q₁, I toks q₁ → (peekToks q₁ toks < 0 ∨ q₁.qdisc.skbs = []) →
      toks - q₁.rate.l2tNs skb.pktLen < 0 → J .success ((tsfPark skb q₁).2.waiting
        (q.now K - if q₁.qdisc.skbs.head?.isSome then peekToks q₁ toks
          else toks - q₁.rate.l2tNs skb.pktLen) skb.pktLen))
    (heq : tsfPlain K skb q = .ok (ret, q')) : J ret q' := by
  rw [tsfPlain_eq] at heq
  split at heq
  · cases heq
  · rename_i ret' q₁ hall
    obtain ⟨rfl, rfl⟩ := Prod.mk.inj (Except.ok.inj heq)
    rcases tsfPromoteAll_rule hpromote h₀ hall with
      ⟨_, _, -, -, hr⟩ | ⟨toks, q₂, p, l, ret, k, hI, hl, hpos, hne, hk, hr⟩
    · cases hr
    · cases hr
      exact hlost toks q₂ p l _ k hI hl hpos hne hk
  · rename_i toks toks2 preSkb q₁ hall
    rcases tsfPromoteAll_rule hpromote h₀ hall with
      ⟨toks', q₂, hI, hend, hr⟩ | ⟨_, _, _, _, _, _, -, -, -, -, -, hr⟩
    · cases hr
      rcases tsfNew_cases heq with ⟨hpos, k, hk, rfl⟩ | ⟨hneg, rfl, rfl⟩
      · exact hring _ _ _ k hI hend hpos hk
      · exact hpark _ _ hI hend hneg
    · cases hr

theorem tsfPlain_rule {I : ℤ → Tsf → Prop} {J : Tsf → Prop}
    (h₀ : I (enqueueToks q (q.now K)) (q.begin skb))
    (hpromote : ∀ toks q₁ p l k, I toks q₁ → q₁.qdisc.skbs = p :: l →
      0 ≤ toks - q₁.rate.l2tNs p.pktLen → kfifoEnqueue (some p) q₁.kfifo = .ok (.success, k) →
      I (toks - q₁.rate.l2tNs p.pktLen)
        (q₁.promoted (q.now K) (toks - q₁.rate.l2tNs p.pktLen) p l k))
    (hlost : ∀ toks q₁ p l ret k, I toks q₁ → q₁.qdisc.skbs = p :: l →
      0 ≤ toks - q₁.rate.l2tNs p.pktLen → ret ≠ .success →
      kfifoEnqueue (some p) q₁.kfifo = .ok (ret, k) → J (q₁.lost (q.now K) p l ret k))
    (hring : ∀ toks q₁ ret k, I toks q₁ → (peekToks q₁ toks < 0 ∨ q₁.qdisc.skbs = []) →
      0 ≤ toks - q₁.rate.l2tNs skb.pktLen → kfifoEnqueue (some skb) q₁.kfifo = .ok (ret, k) →
      J (((q₁.afterRing (q.now K) skb ret k).charged (q.now K)
        (toks - q₁.rate.l2tNs skb.pktLen)).countDrop ret))
    (hpark : ∀ toks q₁ expiry, I toks q₁ → (peekToks q₁ toks < 0 ∨ q₁.qdisc.skbs = []) →
      toks - q₁.rate.l2tNs skb.pktLen < 0 → J ((tsfPark skb q₁).2.waiting expiry skb.pktLen))
    (heq : tsfPlain K skb q = .ok (ret, q')) : J q' :=
  tsfPlain_outcome (J := fun _ q => J q) h₀ hpromote hlost hring
    (fun toks q₁ hI hend hneg => hpark toks q₁ _ hI hend hneg) heq

theorem tsfSegmentOne_park {seg : Skb} (h : ¬0 ≤ segmentToks q (q.now K) seg) :
    tsfSegmentOne K seg q = .ok ((tsfPark (markSegment seg) q.tick).1,
      (tsfPark (markSegment seg) q.tick).2.countDrop (tsfPark (markSegment seg) q.tick).1) :=
  if_neg h

theorem tsfSegmentOne_ring {seg : Skb} (h : 0 ≤ segmentToks q (q.now K) seg) :
    tsfSegmentOne K seg q =
      match kfifoEnqueue (some (markSegment seg)) q.kfifo with
      | .error e => .error e
      | .ok (ret, k) => .ok (ret, ((q.tick.afterRing (q.now K) (markSegment seg) ret k).charged
          (q.now K) (segmentToks q (q.now K) seg)).countDrop ret) := by
  refine (if_pos h).trans ?_
  have hring : tsfRing (q.now K) (markSegment seg) q.tick =
      match kfifoEnqueue (some (markSegment seg)) q.kfifo with
      | .error e => .error e
      | .ok (ret, k) => .ok (ret, q.tick.afterRing (q.now K) (markSegment seg) ret k) := rfl
  rw [hring]
  cases kfifoEnqueue (some (markSegment seg)) q.kfifo with
  | error e => rfl
  | ok r => rfl

theorem tsfSegmentOne_cases {seg : Skb} (h : tsfSegmentOne K seg q = .ok (ret, q')) :
    (0 ≤ segmentToks q (q.now K) seg ∧
      ∃ k, kfifoEnqueue (some (markSegment seg)) q.kfifo = .ok (ret, k) ∧
        q' = ((q.tick.afterRing (q.now K) (markSegment seg) ret k).charged (q.now K)
          (segmentToks q (q.now K) seg)).countDrop ret) ∨
    (segmentToks q (q.now K) seg < 0 ∧ ret = (tsfPark (markSegment seg) q.tick).1 ∧
      q' = (tsfPark (markSegment seg) q.tick).2.countDrop ret) := by
  by_cases hpos : 0 ≤ segmentToks q (q.now K) seg
  · rw [tsfSegmentOne_ring hpos] at h
    split at h
    · cases h
    · rename_i ret' k hk
      obtain ⟨rfl, rfl⟩ := Prod.mk.inj (Except.ok.inj h)
      exact .inl ⟨hpos, k, hk, rfl⟩
  · rw [tsfSegmentOne_park hpos] at h
    obtain ⟨rfl, rfl⟩ := Prod.mk.inj (Except.ok.inj h)
    exact .inr ⟨not_le.mp hpos, rfl, rfl⟩

/-- The rule of the loop over the segments: `I` is an invariant of the segments still to
come, the number stored, and the state. -/
theorem tsfSegmentLoop_rule {I : List Skb → ℕ → Tsf → Prop}
    (hstep : ∀ seg segs nb q ret q', I (seg :: segs) nb q → tsfSegmentOne K seg q = .ok (ret, q') →
      I segs (if ret = .success then nb + 1 else nb) q')
    {segs : List Skb} {nb nb' : ℕ} (h₀ : I segs nb q)
    (heq : tsfSegmentLoop K segs nb q = .ok (nb', q')) : I [] nb' q' := by
  induction segs generalizing nb q with
  | nil =>
    obtain ⟨rfl, rfl⟩ := Prod.mk.inj (Except.ok.inj heq)
    exact h₀
  | cons seg segs ih =>
    simp only [tsfSegmentLoop] at heq
    split at heq
    · cases heq
    · rename_i ret q₁ hone
      exact ih (hstep seg segs nb q ret q₁ h₀ hone) heq

def Tsf.beginSegments (q : Tsf) (segs : List Skb) : Tsf :=
  { q with trace := q.trace ++ segs.map fun seg => Event.offered (markSegment seg) }

/-- The counters after the loop over the segments `segs` of `skb` stored `nb` of them. -/
def Tsf.endSegments (q : Tsf) (skb : Skb) (segs : List Skb) (nb : ℕ) : Tsf :=
  let q := { q with qlen := q.qlen + nb }
  if 1 < nb then q.treeReduceBacklog (1 - nb) (skb.pktLen - (segs.map Skb.len).sum) else q

theorem endSegments_eq (q : Tsf) (skb : Skb) (segs : List Skb) (nb : ℕ) :
    ∃ p b, q.endSegments skb segs nb =
      { q with qlen := q.qlen + nb, parentQlen := p, parentBacklog := b } := by
  unfold Tsf.endSegments
  split_ifs
  · exact ⟨_, _, rfl⟩
  · exact ⟨_, _, rfl⟩

theorem tsfSegment_nil (h : K.skbGsoSegment skb = []) :
    tsfSegment K skb q = .ok (.drop, { q with drops := q.drops + 1, toFree := skb :: q.toFree }) := by
  unfold tsfSegment
  rw [h]

theorem tsfSegment_cons (h : K.skbGsoSegment skb ≠ []) : tsfSegment K skb q =
    match tsfSegmentLoop K (K.skbGsoSegment skb) 0 (q.beginSegments (K.skbGsoSegment skb)) with
    | .error e => .error e
    | .ok (nb, q) => .ok (if 0 < nb then .success else .drop,
        q.endSegments skb (K.skbGsoSegment skb) nb) := by
  unfold tsfSegment
  cases hs : K.skbGsoSegment skb with
  | nil => exact absurd hs h
  | cons seg segs => rfl

/-- A packet that cannot be segmented is put on `to_free`; the segments of any other go
through the loop, and then the counters of the scheduler and its parents change. -/
theorem tsfSegment_cases (h : tsfSegment K skb q = .ok (ret, q')) :
    (K.skbGsoSegment skb = [] ∧
      q' = { q with drops := q.drops + 1, toFree := skb :: q.toFree }) ∨
    (K.skbGsoSegment skb ≠ [] ∧ ∃ nb q₁,
      tsfSegmentLoop K (K.skbGsoSegment skb) 0 (q.beginSegments (K.skbGsoSegment skb)) =
        .ok (nb, q₁) ∧ q' = q₁.endSegments skb (K.skbGsoSegment skb) nb) := by
  by_cases hnil : K.skbGsoSegment skb = []
  · rw [tsfSegment_nil hnil] at h
    exact .inl ⟨hnil, (Prod.mk.inj (Except.ok.inj h)).2.symm⟩
  · rw [tsfSegment_cons hnil] at h
    split at h
    · cases h
    · rename_i nb q₁ hloop
      exact .inr ⟨hnil, nb, q₁, hloop, (Prod.mk.inj (Except.ok.inj h)).2.symm⟩

theorem tsfBypass_cases (skb : Skb) (q : Tsf) :
    (tsfBypass skb q = (.success, { q with
      testQdisc := { q.testQdisc with skbs := q.testQdisc.skbs ++ [skb] }
      trace := q.trace ++ [.offered skb] })) ∨
    ∃ ret, ret ≠ .success ∧ tsfBypass skb q = (ret, { q with
      drops := q.drops + 1, toFree := skb :: q.toFree, trace := q.trace ++ [.offered skb] }) := by
  unfold tsfBypass qdiscEnqueue
  cases hv : q.testQdisc.verdict q.testQdisc.skbs skb with
  | success => exact .inl rfl
  | drop => exact .inr ⟨_, by decide, rfl⟩
  | cn => exact .inr ⟨_, by decide, rfl⟩

theorem tsfSpin_ok {sleepTime : ℤ} {spins : ℕ} (h : tsfSpin K now sleepTime spins q = .ok q') :
    ∃ n, q' = { q with readings := q.readings + n + 1 } ∧
      now + sleepTime ≤ K.ktime (q.readings + n) := by
  induction spins generalizing q with
  | zero => cases h
  | succ spins ih =>
    unfold tsfSpin at h
    split_ifs at h with hdone
    · cases h
      have hdone : sleepTime ≤ K.ktime q.readings - now := hdone
      exact ⟨0, rfl, by change _ ≤ K.ktime q.readings; omega⟩
    · obtain ⟨n, rfl, hn⟩ := ih h
      refine ⟨n + 1, ?_, ?_⟩
      · simp only [Tsf.tick, Nat.add_assoc, Nat.add_comm 1]
      · rwa [Nat.add_comm n 1, ← Nat.add_assoc]

theorem tsfDelay_ok {sleepTime : ℤ} {spins : ℕ} (h : tsfDelay K spins sleepTime q = .ok q') :
    ∃ w n, q' = { q with watchdog := w, readings := q.readings + n + 1 } ∧
      (sleepTime ≤ 1000000 → q.now K + sleepTime ≤ K.ktime (q.readings + n)) := by
  unfold tsfDelay at h
  dsimp only at h
  split_ifs at h with hlong
  · cases h
    exact ⟨_, 0, rfl, fun hshort => absurd hlong (not_lt.mpr hshort)⟩
  · obtain ⟨n, rfl, hn⟩ := tsfSpin_ok h
    refine ⟨q.watchdog, n + 1, ?_, fun _ => ?_⟩
    · simp only [Tsf.tick, Nat.add_assoc, Nat.add_comm 1]
    · rwa [Nat.add_comm n 1, ← Nat.add_assoc]

theorem tsfSpin_returns (sleepTime : ℤ) (hclock : ∀ t, ∃ n, t ≤ K.ktime n) (now : ℤ) (q : Tsf) :
    ∃ spins q', tsfSpin K now sleepTime spins q = .ok q' := by
  obtain ⟨n, hn⟩ := hclock (now + sleepTime)
  suffices ∀ m (q : Tsf), n ≤ q.readings + m →
      ∃ q', tsfSpin K now sleepTime (m + 1) q = .ok q' by
    obtain ⟨q', hq'⟩ := this n q (Nat.le_add_left _ _)
    exact ⟨n + 1, q', hq'⟩
  -- on the readings that are left before the clock has passed
  intro m
  induction m with
  | zero =>
    intro q hq
    have : now + sleepTime ≤ q.now K := hn.trans (K.ktime_mono hq)
    exact ⟨q.tick, if_pos (by omega)⟩
  | succ m ih =>
    intro q hq
    by_cases hdone : sleepTime ≤ q.now K - now
    · exact ⟨q.tick, if_pos hdone⟩
    · obtain ⟨q', hq'⟩ := ih q.tick (by simp only [Tsf.tick]; omega)
      exact ⟨q', (if_neg hdone).trans hq'⟩

theorem tsfDelay_returns (sleepTime : ℤ) (hclock : ∀ t, ∃ n, t ≤ K.ktime n) (q : Tsf) :
    ∃ spins q', tsfDelay K spins sleepTime q = .ok q' := by
  by_cases hlong : 1000000 < sleepTime
  · exact ⟨0, _, if_pos hlong⟩
  · obtain ⟨spins, q', hq'⟩ := tsfSpin_returns sleepTime hclock (q.now K) q.tick
    exact ⟨spins, q', (if_neg hlong).trans hq'⟩

theorem bypassHead_cons (h : bypassHead q = some skb) :
    q.testQdisc.skbs = skb :: q.testQdisc.skbs.tail := by
  have hpeek : q.qdisc.ops.peek q.testQdisc = some skb := (Option.filter_eq_some_iff.mp h).1
  cases hops : q.qdisc.ops with
  | noop =>
    rw [hops] at hpeek
    cases hpeek
  | bfifo =>
    rw [hops] at hpeek
    exact (List.cons_head?_tail hpeek).symm

theorem bypassHead_mem (h : bypassHead q = some skb) : skb ∈ q.testQdisc.skbs := by
  rw [bypassHead_cons h]
  exact List.mem_cons_self

inductive DequeueCase (K : Kernel) (q : Tsf) : Option Skb → Tsf → Prop
  | bypass {skb : Skb} : bypassHead q = some skb →
      DequeueCase K q (some skb) { q.tick with
        testQdisc := { q.testQdisc with skbs := q.testQdisc.skbs.tail }
        trace := q.trace ++ [.bypassed (q.now K) skb] }
  | sent {skb : Skb} {k : Ring} : bypassHead q = none → kfifoDequeue q.kfifo = .ok (some skb, k) →
      DequeueCase K q (some skb) { q.tick with
        kfifo := k, trace := q.trace ++ [.sent (q.now K) skb] }
  | nothing {k : Ring} : bypassHead q = none → kfifoDequeue q.kfifo = .ok (none, k) → ¬k.Owes →
      DequeueCase K q none { q.tick with kfifo := k }
  | finished {k : Ring} (w : Option ℤ) (n : ℕ) : bypassHead q = none →
      kfifoDequeue q.kfifo = .ok (none, k) → k.Owes →
      ((k.node k.pread).sleepTime ≤ 1000000 →
        q.now K + (k.node k.pread).sleepTime ≤ K.ktime (q.readings + 1 + n)) →
      DequeueCase K q none { q with
        kfifo := k.modify k.pread kfifoFinishNode
        trace := q.trace ++ [.finished (q.now K) (k.node k.pread).sleepTime]
        watchdog := w, readings := q.readings + 1 + n + 1 }

theorem tsfDequeue_cases {spins : ℕ} {o : Option Skb} (h : tsfDequeue K spins q = .ok (o, q')) :
    DequeueCase K q o q' := by
  unfold tsfDequeue at h
  dsimp only at h
  split at h
  · rename_i skb hhead
    obtain ⟨rfl, rfl⟩ := Prod.mk.inj (Except.ok.inj h)
    exact .bypass hhead
  · rename_i hhead
    unfold tsfDequeueRing at h
    split at h
    · cases h
    · rename_i skb k hk
      obtain ⟨rfl, rfl⟩ := Prod.mk.inj (Except.ok.inj h)
      exact .sent hhead hk
    · rename_i k hk
      by_cases howes : k.Owes
      · simp only [kfifoFinish_owes howes] at h
        split at h
        · cases h
        · rename_i q₁ hdelay
          obtain ⟨rfl, rfl⟩ := Prod.mk.inj (Except.ok.inj h)
          obtain ⟨w, n, rfl, hn⟩ := tsfDelay_ok hdelay
          refine .finished w n hhead hk howes fun hshort => ?_
          have hmono : q.now K ≤ K.ktime (q.readings + 1) := K.ktime_mono (Nat.le_succ _)
          have hlate := hn (by exact_mod_cast hshort)
          exact (add_le_add_left hmono _).trans hlate
      · simp only [kfifoFinish_free howes] at h
        obtain ⟨rfl, rfl⟩ := Prod.mk.inj (Except.ok.inj h)
        exact .nothing hhead hk howes

inductive StepCase (K : Kernel) (q : Tsf) : TsfCall → TsfAnswer → Tsf → Prop
  | bypass {skb : Skb} : skb.daddr ≠ deip →
      StepCase K q (.enqueue skb) (.verdict (tsfBypass skb q).1) (tsfBypass skb q).2
  | segments {c : TsfCall} {skb : Skb} {ret : NetXmit} {q' : Tsf} :
      c = .segment skb ∨ (c = .enqueue skb ∧ skb.daddr = deip ∧ Segments K skb q) →
      tsfSegment K skb q = .ok (ret, q') → StepCase K q c (.verdict ret) q'
  | plain {skb : Skb} {ret : NetXmit} {q' : Tsf} : skb.daddr = deip → ¬Segments K skb q →
      tsfPlain K skb q = .ok (ret, q') → StepCase K q (.enqueue skb) (.verdict ret) q'
  | dequeue {spins : ℕ} {o : Option Skb} {q' : Tsf} :
      DequeueCase K q o q' → StepCase K q (.dequeue spins) (.packet o) q'

theorem tsfEnqueue_segment (hd : skb.daddr = deip) (hs : Segments K skb q) :
    tsfEnqueue K skb q = tsfSegment K skb q := by
  rw [tsfEnqueue, if_neg (not_not.mpr hd), if_pos hs]

theorem tsfEnqueue_plain (hd : skb.daddr = deip) (hs : ¬Segments K skb q) :
    tsfEnqueue K skb q = tsfPlain K skb q := by
  rw [tsfEnqueue, if_neg (not_not.mpr hd), if_neg hs]

theorem tsfStep_cases {c : TsfCall} {a : TsfAnswer} (h : tsfStep K q c = .ok (a, q')) :
    StepCase K q c a q' := by
  cases c with
  | enqueue skb =>
    simp only [tsfStep] at h
    by_cases hd : skb.daddr = deip
    · by_cases hs : Segments K skb q
      · rw [tsfEnqueue_segment hd hs] at h
        split at h
        · cases h
        · rename_i ret q₁ heq
          obtain ⟨rfl, rfl⟩ := Prod.mk.inj (Except.ok.inj h)
          exact .segments (.inr ⟨rfl, hd, hs⟩) heq
      · rw [tsfEnqueue_plain hd hs] at h
        split at h
        · cases h
        · rename_i ret q₁ heq
          obtain ⟨rfl, rfl⟩ := Prod.mk.inj (Except.ok.inj h)
          exact .plain hd hs heq
    · rw [tsfEnqueue, if_pos hd] at h
      obtain ⟨rfl, rfl⟩ := Prod.mk.inj (Except.ok.inj h)
      exact .bypass hd
  | segment skb =>
    simp only [tsfStep] at h
    split at h
    · cases h
    · rename_i ret q₁ heq
      obtain ⟨rfl, rfl⟩ := Prod.mk.inj (Except.ok.inj h)
      exact .segments (.inl rfl) heq
  | dequeue spins =>
    simp only [tsfStep] at h
    split at h
    · cases h
    · rename_i o q₁ heq
      obtain ⟨rfl, rfl⟩ := Prod.mk.inj (Except.ok.inj h)
      exact .dequeue (tsfDequeue_cases heq)

end MeasurementLimiter
