import MeasurementLimiter.RingLedger
import MeasurementLimiter.TsfLog
import MeasurementLimiter.TsfOrder

namespace MeasurementLimiter

open Runs

variable {K : Kernel} {τ : ℤ} {skb : Skb} {rate : PschedRatecfg} {T : ℕ} {k k' : Ring}
  {l l' : List Event} {q₀ q q' : Tsf}

def Event.storedSkb : Event → Option Skb
  | .stored _ skb => some skb
  | _ => none

/-- What the packets took that were sent since the last pause began, after one more event. -/
def Event.burst (rate : PschedRatecfg) (b : ℕ) : Event → ℕ
  | .sent _ skb => b + rate.l2tNs skb.pktLen
  | .finished _ _ => 0
  | _ => b

def burst (rate : PschedRatecfg) (l : List Event) : ℕ := l.foldl (Event.burst rate) 0

def Brief (rate : PschedRatecfg) (T : ℕ) (l : List Event) : Prop :=
  ∀ now skb, .stored now skb ∈ l → rate.l2tNs skb.pktLen ≤ T

@[simp] theorem burst_append (rate : PschedRatecfg) (l : List Event) (e : Event) :
    burst rate (l ++ [e]) = e.burst rate (burst rate l) := by
  simp [burst]

theorem Brief.of_append (h : Brief rate T (l ++ l')) : Brief rate T l :=
  fun now skb hmem => h now skb (List.mem_append_left _ hmem)

theorem filterMap_snoc {β : Type*} (f : Event → Option β) (l : List Event) (e : Event) :
    (l ++ [e]).filterMap f = l.filterMap f ++ (f e).toList := by
  rw [List.filterMap_append]
  cases h : f e <;> simp [h]

theorem sleptTime_snoc (l : List Event) (e : Event) :
    sleptTime (l ++ [e]) = sleptTime l + e.sleptTime := by
  simp [sleptTime]

theorem brief_iff :
    Brief rate T l ↔ ∀ skb ∈ l.filterMap Event.storedSkb, rate.l2tNs skb.pktLen ≤ T := by
  constructor
  · intro h skb hmem
    obtain ⟨e, he, hskb⟩ := List.mem_filterMap.mp hmem
    cases e with
    | stored now p =>
      obtain rfl := Option.some.inj hskb
      exact h now p he
    | offered | finished | sent | bypassed => cases hskb
  · intro h now skb hmem
    exact h skb (List.mem_filterMap.mpr ⟨_, hmem, rfl⟩)

/-- Events that neither the ring nor its pauses make leave all of it as it is. -/
structure Event.Quiet (rate : PschedRatecfg) (e : Event) : Prop where
  storedSkb : e.storedSkb = none
  sentSkb : e.sentSkb = none
  burst : ∀ b, e.burst rate b = b
  sleptTime : e.sleptTime = 0

theorem Event.Elsewhere.quiet {e : Event} (h : e.Elsewhere) : e.Quiet rate := by
  cases e with
  | offered skb => exact ⟨rfl, rfl, fun _ => rfl, rfl⟩
  | bypassed now skb => exact ⟨rfl, rfl, fun _ => rfl, rfl⟩
  | stored | finished | sent => exact h.elim

/-- The ring and the trace agree: the ledger has the burst, the ring has what was stored and
not sent, and all that was sent has been slept for but the burst. -/
structure Booked (rate : PschedRatecfg) (k : Ring) (l : List Event) : Prop where
  ledger : Ledger k (burst rate l)
  ringRate : k.rate = rate
  fifo : l.filterMap Event.sentSkb ++ k.stored = l.filterMap Event.storedSkb
  slept : sleptTime l + burst rate l = timeOf rate (l.filterMap Event.sentSkb)

theorem TsfFresh.booked (h : TsfFresh q) : Booked q.kfifo.rate q.kfifo q.trace := by
  rw [h.trace]
  exact ⟨h.ring.ledger, rfl, h.ring.stored, rfl⟩

theorem booked_logged (rate : PschedRatecfg) : Logged fun _ k l => Booked rate k l where
  ring h := h.ledger.toRingInv
  later _ h := h
  elsewhere := by
    intro τ k l e h he
    have hq : e.Quiet rate := he.quiet
    refine ⟨?_, h.ringRate, ?_, ?_⟩
    · rw [burst_append, hq.burst]
      exact h.ledger
    · simpa [filterMap_snoc, hq.sentSkb, hq.storedSkb] using h.fifo
    · simpa [filterMap_snoc, sleptTime_snoc, hq.burst, hq.sentSkb, hq.sleptTime] using h.slept
  stored := by
    intro τ k k' l skb h heq
    have hsame := (kfifoEnqueue_same h.ledger.toCircular heq).rate
    refine ⟨?_, hsame.trans h.ringRate, ?_, ?_⟩
    · rw [burst_append]
      exact h.ledger.enqueue heq
    · rcases h.ledger.enqueue_stored heq with ⟨-, hs⟩ | ⟨hret, -⟩
      · simp [hs, ← h.fifo, Event.sentSkb, Event.storedSkb]
      · cases hret
    · rw [filterMap_snoc, sleptTime_snoc, burst_append]
      simpa [Event.sentSkb, Event.burst, Event.sleptTime] using h.slept
  sent := by
    intro τ k k' l skb h heq
    have hsame := (kfifoDequeue_same h.ledger.toCircular heq).rate
    have hledger := h.ledger.dequeue_some heq
    rw [h.ringRate] at hledger
    refine ⟨?_, hsame.trans h.ringRate, ?_, ?_⟩
    · rw [burst_append]
      exact hledger
    · have hhead := (h.ledger.toRingInv.dequeue_some heq).1
      simp [← h.fifo, hhead, Event.sentSkb, Event.storedSkb]
    · rw [filterMap_snoc, sleptTime_snoc, burst_append, timeOf_append, ← h.slept]
      simp [Event.sentSkb, Event.burst, Event.sleptTime]
      omega
  nothing := by
    intro τ k k' l h heq
    have hsame := (kfifoDequeue_same h.ledger.toCircular heq).rate
    refine ⟨h.ledger.dequeue_none heq, hsame.trans h.ringRate, ?_, h.slept⟩
    rw [(h.ledger.toRingInv.dequeue_none heq).1]
    exact h.fifo
  finished := by
    intro τ k l h howes
    refine ⟨?_, h.ringRate, ?_, ?_⟩
    · rw [burst_append]
      exact h.ledger.pay howes
    · rw [filterMap_snoc, filterMap_snoc, h.ledger.stored_pay howes]
      simpa [Event.sentSkb, Event.storedSkb] using h.fifo
    · rw [filterMap_snoc, sleptTime_snoc, burst_append, h.ledger.sleep_read howes.1]
      simpa [Event.sentSkb, Event.burst, Event.sleptTime] using h.slept

theorem Logged.extends {I : ℤ → Ring → List Event → Prop} (hI : Logged I) (l₀ : List Event) :
    Logged fun τ k l => I τ k l ∧ l₀ <+: l where
  ring h := hI.ring h.1
  later hle h := ⟨hI.later hle h.1, h.2⟩
  elsewhere e h he := ⟨hI.elsewhere e h.1 he, h.2.trans (List.prefix_append _ _)⟩
  stored h heq := ⟨hI.stored h.1 heq, h.2.trans (List.prefix_append _ _)⟩
  sent h heq := ⟨hI.sent h.1 heq, h.2.trans (List.prefix_append _ _)⟩
  nothing h heq := ⟨hI.nothing h.1 heq, h.2⟩
  finished h howes := ⟨hI.finished h.1 howes, h.2.trans (List.prefix_append _ _)⟩

theorem capped_logged (rate : PschedRatecfg) (hT : T < 2 ^ 31) :
    Logged fun _ k l => Booked rate k l ∧ (Brief rate T l → Capped T k) where
  ring h := h.1.ledger.toRingInv
  later _ h := h
  elsewhere := by
    intro τ k l e h he
    exact ⟨(booked_logged rate).elsewhere (τ := τ) e h.1 he, fun hb => h.2 hb.of_append⟩
  stored := by
    intro τ k k' l skb h heq
    refine ⟨(booked_logged rate).stored (τ := τ) h.1 heq, fun hb => ?_⟩
    refine (h.2 hb.of_append).enqueue hT (fun _ => ?_) heq
    rw [h.1.ringRate]
    exact hb τ skb (List.mem_append_right _ (List.mem_singleton_self _))
  sent h heq := ⟨(booked_logged rate).sent h.1 heq, fun hb => (h.2 hb.of_append).dequeue heq⟩
  nothing h heq := ⟨(booked_logged rate).nothing (τ := 0) h.1 heq, fun hb => (h.2 hb).dequeue heq⟩
  finished h howes :=
    ⟨(booked_logged rate).finished h.1 howes, fun hb => (h.2 hb.of_append).pay howes⟩

theorem booked_of_run {opt : Option TsfEnv} (hinit : tsfInit K opt = (0, q₀)) {h : TsfHistory}
    (run : Run (tsfStep K) q₀ h q) : Booked q₀.kfifo.rate q.kfifo q.trace :=
  (booked_logged q₀.kfifo.rate).run (tsfInit_fresh hinit).booked run

theorem capped_of_run {opt : Option TsfEnv} (hinit : tsfInit K opt = (0, q₀)) {h : TsfHistory}
    (run : Run (tsfStep K) q₀ h q) (hT : T < 2 ^ 31) (hbrief : Brief q₀.kfifo.rate T q.trace) :
    Capped T q.kfifo := by
  have hfresh := tsfInit_fresh hinit
  have hrun := (capped_logged q₀.kfifo.rate hT).run
    ⟨hfresh.booked, fun _ => hfresh.ring.capped T⟩ run
  exact hrun.2 hbrief

/-- As long as a packet is in the ring, what was slept since, and what the packets take that
were sent since the last pause and those that are still in the ring of those that were, is
what the nodes owed.  They leave in their order. -/
theorem Booked.slept_since (b : Booked rate k l) (b' : Booked rate k' l') (hext : l <+: l')
    {before behind : List Skb} (hstored : k.stored = before ++ skb :: behind) :
    ∃ gone, l'.filterMap Event.sentSkb = l.filterMap Event.sentSkb ++ gone ∧
      (before ++ [skb] <+: gone ∨
        ∃ left more, before = gone ++ left ∧ k'.stored = left ++ skb :: behind ++ more ∧
          sleptTime l' + burst rate l' + timeOf rate (left ++ skb :: behind) =
            sleptTime l + k.owed) := by
  obtain ⟨new, rfl⟩ := hext
  have hfifo := b'.fifo
  rw [List.filterMap_append, List.filterMap_append, ← b.fifo, List.append_assoc,
    List.append_assoc, List.append_cancel_left_eq, hstored, List.append_assoc] at hfifo
  have hsent : (l ++ new).filterMap Event.sentSkb =
      l.filterMap Event.sentSkb ++ new.filterMap Event.sentSkb := List.filterMap_append
  refine ⟨new.filterMap Event.sentSkb, hsent, ?_⟩
  have hleft : (∃ left, before = new.filterMap Event.sentSkb ++ left ∧
        k'.stored = left ++ (skb :: behind ++ new.filterMap Event.storedSkb)) ∨
      before ++ [skb] <+: new.filterMap Event.sentSkb := by
    rcases List.append_eq_append_iff.mp hfifo with ⟨left, hbefore, hs⟩ | ⟨gone, hgone, hs⟩
    · exact .inl ⟨left, hbefore, hs⟩
    · cases gone with
      | nil => exact .inl ⟨[], by simpa using hgone.symm, by simpa using hs.symm⟩
      | cons p gone =>
        obtain ⟨rfl, -⟩ := List.cons.inj hs
        exact .inr ⟨gone, by simp [hgone]⟩
  rcases hleft with ⟨left, hbefore, hs⟩ | hgone
  · refine .inr ⟨left, _, hbefore, by rw [hs, List.append_assoc], ?_⟩
    have howed := b.ledger.owed
    have hslept := b'.slept
    rw [b.ringRate, hstored, hbefore, List.append_assoc, timeOf_append] at howed
    rw [hsent, timeOf_append, ← b.slept] at hslept
    omega
  · exact .inl hgone

theorem booked_twice {opt : Option TsfEnv} (hinit : tsfInit K opt = (0, q₀))
    {h h' : TsfHistory} (run : Run (tsfStep K) q₀ h q) (run' : Run (tsfStep K) q h' q') :
    Booked q₀.kfifo.rate q.kfifo q.trace ∧ Booked q₀.kfifo.rate q'.kfifo q'.trace ∧
      q.trace <+: q'.trace := by
  have b := booked_of_run hinit run
  have hext := ((booked_logged q₀.kfifo.rate).extends q.trace).run ⟨b, List.prefix_refl _⟩ run'
  exact ⟨b, hext.1, hext.2⟩

/-- From any state that a run of a configured scheduler reaches: as long as a packet is in the
ring, the time that was slept since is what the packets owed that left before it. -/
theorem slept_while_waiting {opt : Option TsfEnv} (hinit : tsfInit K opt = (0, q₀))
    {h h' : TsfHistory} (run : Run (tsfStep K) q₀ h q) (run' : Run (tsfStep K) q h' q')
    {before behind : List Skb} (hstored : q.kfifo.stored = before ++ skb :: behind) :
    ∃ gone, q'.trace.filterMap Event.sentSkb = q.trace.filterMap Event.sentSkb ++ gone ∧
      (before ++ [skb] <+: gone ∨
        ∃ left more, before = gone ++ left ∧ q'.kfifo.stored = left ++ skb :: behind ++ more ∧
          sleptTime q'.trace + burst q₀.kfifo.rate q'.trace +
              timeOf q₀.kfifo.rate (left ++ skb :: behind) = sleptTime q.trace + q.kfifo.owed) := by
  obtain ⟨b, b', hext⟩ := booked_twice hinit run run'
  exact b.slept_since b' hext hstored

def booksSample : Tsf := tsfSampleAfter jumboSample 120000000 [.enqueue (skbSample 9 120000)]

theorem booksSample_run : Run (tsfStep jumboSample) (tsfSample jumboSample 120000000)
    [(.enqueue (skbSample 9 120000), .verdict .success)] booksSample :=
  tsfSampleAfter_run (by decide +kernel)

theorem booksSample_stored :
    booksSample.kfifo.stored = [skbSample 1 60000] ++ skbSample 2 60000 :: [] := by
  decide +kernel

theorem slept_while_waiting_sample :
    ∃ (q' : Tsf) (gone : List Skb), q'.trace.filterMap Event.sentSkb = [skbSample 1 60000] ∧
      q'.trace.filterMap Event.sentSkb = booksSample.trace.filterMap Event.sentSkb ++ gone ∧
      ([skbSample 1 60000] ++ [skbSample 2 60000] <+: gone ∨
        ∃ left more, [skbSample 1 60000] = gone ++ left ∧
          q'.kfifo.stored = left ++ skbSample 2 60000 :: [] ++ more ∧
          sleptTime q'.trace + burst (tsfSample jumboSample 120000000).kfifo.rate q'.trace +
              timeOf (tsfSample jumboSample 120000000).kfifo.rate (left ++ skbSample 2 60000 :: []) =
            sleptTime booksSample.trace + booksSample.kfifo.owed) := by
  obtain ⟨h, q', run', hq'⟩ := exists_run_of_exec (fun q : Tsf => q.trace.filterMap Event.sentSkb)
    (b := [skbSample 1 60000])
    (show (exec (tsfStep jumboSample) booksSample [.dequeue 0]).toOption.map _ = _ by
      decide +kernel)
  obtain ⟨gone, hgone⟩ :=
    slept_while_waiting (tsfSample_init _ _) booksSample_run run' booksSample_stored
  exact ⟨q', gone, hq', hgone⟩

/-- With packets that take at most `T` each, a packet that is still in the ring has waited for
as many units as the ring has nodes and the longest packet takes, or less. -/
theorem wait_le {opt : Option TsfEnv} (hinit : tsfInit K opt = (0, q₀)) {h h' : TsfHistory}
    (run : Run (tsfStep K) q₀ h q) (run' : Run (tsfStep K) q h' q') (hT : T < 2 ^ 31)
    (hbrief : Brief q₀.kfifo.rate T q.trace) {before behind : List Skb}
    (hstored : q.kfifo.stored = before ++ skb :: behind) :
    q.trace.filterMap Event.sentSkb ++ before ++ [skb] <+: q'.trace.filterMap Event.sentSkb ∨
      sleptTime q'.trace + q₀.kfifo.rate.l2tNs skb.pktLen ≤
        sleptTime q.trace + unitTime * (q.kfifo.totalTime + T / unitTime) := by
  obtain ⟨b, b', hext⟩ := booked_twice hinit run run'
  obtain ⟨gone, hsent, hgone | ⟨left, more, -, -, hslept⟩⟩ := b.slept_since b' hext hstored
  · left
    rw [hsent, List.append_assoc]
    exact List.prefix_append_right_inj _ |>.mpr hgone
  · right
    have howed := (capped_of_run hinit run hT hbrief).owed_le
    rw [timeOf_append, timeOf_cons] at hslept
    omega

theorem wait_le_sample :
    ∃ q' : Tsf, q'.trace.filterMap Event.sentSkb = [skbSample 1 60000] ∧
      (booksSample.trace.filterMap Event.sentSkb ++ [skbSample 1 60000] ++ [skbSample 2 60000] <+:
          q'.trace.filterMap Event.sentSkb ∨
        sleptTime q'.trace +
            (tsfSample jumboSample 120000000).kfifo.rate.l2tNs (skbSample 2 60000).pktLen ≤
          sleptTime booksSample.trace +
            unitTime * (booksSample.kfifo.totalTime + 1046125 / unitTime)) := by
  obtain ⟨h, q', run', hq'⟩ := exists_run_of_exec (fun q : Tsf => q.trace.filterMap Event.sentSkb)
    (b := [skbSample 1 60000])
    (show (exec (tsfStep jumboSample) booksSample [.dequeue 0]).toOption.map _ = _ by
      decide +kernel)
  have hbrief : Brief (tsfSample jumboSample 120000000).kfifo.rate 1046125 booksSample.trace :=
    brief_iff.mpr (by decide +kernel)
  exact ⟨q', hq', wait_le (tsfSample_init _ _) booksSample_run run' (by decide) hbrief
    booksSample_stored⟩

end MeasurementLimiter
