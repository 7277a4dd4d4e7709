import MeasurementLimiter.TsfLog
import MeasurementLimiter.TsfParents

namespace MeasurementLimiter

open Runs

variable {K : Kernel} {toks : ℤ} {skb p : Skb} {ret : NetXmit} {l : List Skb} {k k' : Ring}
  {q₀ q q' : Tsf} {c : ℕ}

theorem bytesOf_append (l l' : List Skb) : bytesOf (l ++ l') = bytesOf l + bytesOf l' := by
  simp [bytesOf]

theorem bytesOf_flatMap (f : ℕ → List Skb) (n : ℕ) :
    bytesOf ((List.range n).flatMap f) = ∑ j ∈ Finset.range n, bytesOf (f j) := by
  induction n with
  | zero => rfl
  | succ n ih =>
    rw [List.range_succ, List.flatMap_append, List.flatMap_singleton, bytesOf_append, ih,
      Finset.sum_range_succ]

theorem RingInv.bytesOf_stored (h : RingInv k) : bytesOf k.stored = k.held := by
  rw [h.stored_eq, bytesOf_flatMap]
  exact Finset.sum_congr rfl fun j hj => (h.nodeSlen_eq j (Finset.mem_range.mp hj)).symm

/-- A ring that counts no more bytes than the `total` ones it may hold. -/
structure Roomy (total : ℕ) (k : Ring) : Prop extends RingInv k where
  slen_le : k.slen ≤ total
  totalLen : k.totalLen = total

theorem Roomy.bytesOf_le {total : ℕ} (h : Roomy total k) : bytesOf k.stored ≤ total :=
  h.bytesOf_stored.trans_le (h.held_le.trans h.slen_le)

theorem Roomy.enqueue {total : ℕ} (h : Roomy total k)
    (heq : kfifoEnqueue (some skb) k = .ok (ret, k')) : Roomy total k' := by
  rcases kfifoEnqueue_cases h.toCircular skb with ⟨he, -⟩ | ⟨t, cost, lands, he⟩
  · rw [he] at heq
    obtain ⟨-, rfl⟩ := Prod.mk.inj (Except.ok.inj heq)
    exact h
  · rw [he] at heq
    obtain ⟨-, rfl⟩ := Prod.mk.inj (Except.ok.inj heq)
    have hroom := lands.room
    rw [h.totalLen] at hroom
    refine ⟨h.toRingInv.store lands, ?_, h.totalLen⟩
    rw [store_slen]
    omega

theorem Roomy.dequeue {total : ℕ} (h : Roomy total k) {o : Option Skb}
    (heq : kfifoDequeue k = .ok (o, k')) : Roomy total k' := by
  obtain ⟨e, w, ⟨hpkt, hd⟩ | ⟨-, hd, -⟩⟩ := kfifoDequeue_cases h.toCircular
  · have hwalk := h.toRingInv.walk w
    have hpkt' : 0 < ((k.walk e).nth 0).pkt := by rwa [hwalk.nth_zero]
    obtain ⟨p, l, -, htake, -, -⟩ := hwalk.take_eq hpkt'
    have hring := hwalk.take hpkt'
    rw [hd] at heq
    rw [htake] at hring heq
    obtain ⟨-, rfl⟩ := Prod.mk.inj (Except.ok.inj heq)
    exact ⟨hring, (Nat.sub_le _ _).trans h.slen_le, h.totalLen⟩
  · rw [hd] at heq
    obtain ⟨-, rfl⟩ := Prod.mk.inj (Except.ok.inj heq)
    exact ⟨h.toRingInv.walk w, h.slen_le, h.totalLen⟩

theorem roomy_logged (total : ℕ) : Logged fun _ k _ => Roomy total k where
  ring h := h.toRingInv
  later _ h := h
  elsewhere _ h _ := h
  stored h heq := h.enqueue heq
  sent h heq := h.dequeue heq
  nothing h heq := h.dequeue heq
  finished := by
    intro τ k l h howes
    have hring := h.toRingInv.finish
    rw [kfifoFinish_owes howes] at hring
    exact ⟨hring, h.slen_le, h.totalLen⟩

/-- What the inner queues do in a call depends on these fields. -/
structure SameQueues (q q' : Tsf) : Prop where
  qdisc : q'.qdisc = q.qdisc
  testQdisc : q'.testQdisc = q.testQdisc
  rate : q'.rate = q.rate
  buffer : q'.buffer = q.buffer
  limit : q'.limit = q.limit

/-- `I` is kept by what a call may do to the inner queues.  The inner queue takes a packet, or
its head goes to the ring if a balance that the bucket can hold pays for it, and the bypass
queue takes a packet or loses its head. -/
structure Sheltered (I : Tsf → Prop) : Prop where
  same : ∀ {q q'}, I q → SameQueues q q' → I q'
  park : ∀ {q skb}, I q → q.qdisc.verdict q.qdisc.skbs skb = .success →
    I (q.withQueue (q.qdisc.skbs ++ [skb]))
  promote : ∀ {q toks skb l}, I q → q.qdisc.skbs = skb :: l → toks ≤ q.buffer →
    0 ≤ toks - q.rate.l2tNs skb.pktLen → I (q.withQueue l)
  arrive : ∀ {q skb}, I q → q.testQdisc.verdict q.testQdisc.skbs skb = .success →
    I { q with testQdisc := { q.testQdisc with skbs := q.testQdisc.skbs ++ [skb] } }
  leave : ∀ {q}, I q →
    I { q with testQdisc := { q.testQdisc with skbs := q.testQdisc.skbs.tail } }

namespace Sheltered

variable {I : Tsf → Prop}

theorem tsfPark (hI : Sheltered I) (h : I q) (skb : Skb) : I (tsfPark skb q).2 := by
  rcases tsfPark_cases skb q with ⟨hv, hp⟩ | ⟨ret, -, -, hp⟩
  · rw [hp]
    exact hI.park h hv
  · rw [hp]
    exact hI.same h ⟨rfl, rfl, rfl, rfl, rfl⟩

theorem plain (hI : Sheltered I) (h : I q) (heq : tsfPlain K skb q = .ok (ret, q')) : I q' := by
  refine tsfPlain_rule (I := fun toks q₁ => toks ≤ q₁.buffer ∧ I q₁) (J := I) ?_ ?_ ?_ ?_ ?_ heq
  · refine ⟨?_, hI.same h ⟨rfl, rfl, rfl, rfl, rfl⟩⟩
    change capTokens q.buffer _ ≤ q.buffer
    rw [capTokens_eq]
    exact min_le_left _ _
  · rintro toks q₁ p l k ⟨hle, h₁⟩ hl hpos -
    refine ⟨?_, hI.same (hI.promote h₁ hl hle hpos) ⟨rfl, rfl, rfl, rfl, rfl⟩⟩
    change _ ≤ q₁.buffer
    omega
  · rintro toks q₁ p l ret k ⟨hle, h₁⟩ hl hpos - -
    exact hI.same (hI.promote h₁ hl hle hpos) ⟨rfl, rfl, rfl, rfl, rfl⟩
  · rintro toks q₁ ret k ⟨-, h₁⟩ - - -
    exact hI.same h₁ ⟨rfl, rfl, rfl, rfl, rfl⟩
  · rintro toks q₁ expiry ⟨-, h₁⟩ - -
    exact hI.same (hI.tsfPark h₁ skb) ⟨rfl, rfl, rfl, rfl, rfl⟩

theorem segment (hI : Sheltered I) (h : I q) (heq : tsfSegment K skb q = .ok (ret, q')) : I q' := by
  rcases tsfSegment_cases heq with ⟨-, rfl⟩ | ⟨-, nb, q₁, hloop, rfl⟩
  · exact hI.same h ⟨rfl, rfl, rfl, rfl, rfl⟩
  · have hbegin : I (q.beginSegments (K.skbGsoSegment skb)) := hI.same h ⟨rfl, rfl, rfl, rfl, rfl⟩
    have hend := tsfSegmentLoop_rule (I := fun _ _ q => I q) ?_ hbegin hloop
    · obtain ⟨p, b, hq⟩ := endSegments_eq q₁ skb (K.skbGsoSegment skb) nb
      rw [hq]
      exact hI.same hend ⟨rfl, rfl, rfl, rfl, rfl⟩
    · intro seg segs nb q₁ ret q₂ h₁ hone
      rcases tsfSegmentOne_cases hone with ⟨-, k, -, rfl⟩ | ⟨-, -, rfl⟩
      · exact hI.same h₁ ⟨rfl, rfl, rfl, rfl, rfl⟩
      · have htick : I q₁.tick := hI.same h₁ ⟨rfl, rfl, rfl, rfl, rfl⟩
        exact hI.same (hI.tsfPark htick _) ⟨rfl, rfl, rfl, rfl, rfl⟩

theorem bypass (hI : Sheltered I) (h : I q) (skb : Skb) : I (tsfBypass skb q).2 := by
  unfold tsfBypass qdiscEnqueue
  cases hv : q.testQdisc.verdict q.testQdisc.skbs skb with
  | success => exact hI.same (hI.arrive h hv) ⟨rfl, rfl, rfl, rfl, rfl⟩
  | drop => exact hI.same h ⟨rfl, rfl, rfl, rfl, rfl⟩
  | cn => exact hI.same h ⟨rfl, rfl, rfl, rfl, rfl⟩

theorem step (hI : Sheltered I) (h : I q) {c : TsfCall} {a : TsfAnswer}
    (heq : tsfStep K q c = .ok (a, q')) : I q' := by
  cases tsfStep_cases heq with
  | @bypass skb => exact hI.bypass h skb
  | segments _ hseg => exact hI.segment h hseg
  | plain _ _ hplain => exact hI.plain h hplain
  | dequeue hcase =>
    cases hcase with
    | bypass => exact hI.same (hI.leave h) ⟨rfl, rfl, rfl, rfl, rfl⟩
    | sent => exact hI.same h ⟨rfl, rfl, rfl, rfl, rfl⟩
    | nothing => exact hI.same h ⟨rfl, rfl, rfl, rfl, rfl⟩
    | finished => exact hI.same h ⟨rfl, rfl, rfl, rfl, rfl⟩

theorem run (hI : Sheltered I) (h₀ : I q) {h : TsfHistory} (run : Run (tsfStep K) q h q') : I q' :=
  run.keeps h₀ fun _ _ _ _ hq _ heq => hI.step hq heq

end Sheltered

/-- An inner queue that holds at most `limit` bytes, and takes no packet beyond them. -/
structure Qdisc.Within (limit : ℕ) (sch : Qdisc) : Prop where
  bytes : bytesOf sch.skbs ≤ limit
  verdict : ∀ l skb, sch.verdict l skb = .success → bytesOf l + skb.pktLen ≤ limit

theorem within_bfifo (hbfifo : K.BfifoLimited) (limit : ℕ) : (bfifo K limit).Within limit :=
  ⟨Nat.zero_le _, hbfifo limit⟩

theorem within_noop (K : Kernel) (limit : ℕ) : (noopQdisc K).Within limit :=
  ⟨Nat.zero_le _, fun l skb h => absurd h (K.noop_refuses l skb)⟩

theorem Qdisc.Within.snoc {sch : Qdisc} (h : sch.Within c)
    (hv : sch.verdict sch.skbs skb = .success) :
    ({ sch with skbs := sch.skbs ++ [skb] } : Qdisc).Within c := by
  refine ⟨?_, h.verdict⟩
  have hle := h.verdict _ _ hv
  simpa [bytesOf] using hle

theorem Qdisc.Within.shorter {sch : Qdisc} (h : sch.Within c) (hl : l <:+ sch.skbs) :
    ({ sch with skbs := l } : Qdisc).Within c :=
  ⟨((hl.sublist.map Skb.pktLen).sum_le_sum fun _ _ => Nat.zero_le _).trans h.bytes, h.verdict⟩

structure Limited (c : ℕ) (q : Tsf) : Prop where
  qdisc : q.qdisc.Within c
  testQdisc : q.testQdisc.Within c

theorem limited_sheltered (c : ℕ) : Sheltered (Limited c) where
  same h hs := ⟨hs.qdisc ▸ h.qdisc, hs.testQdisc ▸ h.testQdisc⟩
  park h hv := ⟨h.qdisc.snoc hv, h.testQdisc⟩
  promote := by
    intro q toks skb l h hl _ _
    exact ⟨h.qdisc.shorter (hl ▸ List.suffix_cons skb l), h.testQdisc⟩
  arrive h hv := ⟨h.qdisc, h.testQdisc.snoc hv⟩
  leave h := ⟨h.qdisc, h.testQdisc.shorter (List.tail_suffix _)⟩

theorem tsfNewChild_within (hbfifo : K.BfifoLimited) {child : Option ℤ} {old sch : Qdisc}
    (hold : old.Within q.limit) (h : tsfNewChild K child old q = .ok (sch, q')) :
    sch.Within q.limit ∧ q'.limit = q.limit := by
  by_cases hpos : 0 < q.tlen
  · obtain ⟨rfl, rfl⟩ := tsfNewChild_pos hpos h
    exact ⟨within_bfifo hbfifo _, rfl⟩
  · rw [tsfNewChild_zero hpos] at h
    obtain ⟨rfl, rfl⟩ := Prod.mk.inj (Except.ok.inj h)
    exact ⟨hold, rfl⟩

theorem tsfInit_limited (hbfifo : K.BfifoLimited) {opt : Option TsfEnv}
    (hinit : tsfInit K opt = (0, q)) : Limited q.limit q := by
  cases opt with
  | none => exact absurd (Prod.mk.inj hinit).1 (by decide)
  | some env =>
    obtain ⟨parms, time, rate64, testQdisc, q₁, qdisc, q₂, -, h₁, h₂, h₃⟩ := tsfChange_ok hinit
    obtain ⟨htest, hlimit⟩ := tsfNewChild_within hbfifo (within_noop K _) h₁
    obtain ⟨n, b, d, m, b', rfl⟩ := tsfNewChild_keeps h₁
    obtain ⟨hqdisc, -⟩ := tsfNewChild_within hbfifo (within_noop K _) h₂
    obtain ⟨n, b, d, m, b', rfl⟩ := tsfNewChild_keeps h₂
    obtain ⟨k, -, -, rfl⟩ := tsfMakeRing_ok h₃
    exact ⟨hqdisc, htest⟩

theorem limited_of_run (hbfifo : K.BfifoLimited) {opt : Option TsfEnv}
    (hinit : tsfInit K opt = (0, q₀)) {h : TsfHistory} (run : Run (tsfStep K) q₀ h q) :
    Limited q₀.limit q :=
  (limited_sheltered _).run (tsfInit_limited hbfifo hinit) run

theorem bfifoLimited_sample (late : ℕ) (segs : List Skb) :
    (kernelSample late segs).BfifoLimited := by
  intro limit l skb h
  by_contra hfull
  exact NetXmit.noConfusion ((if_neg hfull).symm.trans h)

/-- In every run of a configured scheduler each of its three queues holds at most the bytes that
it was made for. -/
theorem queues_bounded (hbfifo : K.BfifoLimited) {opt : Option TsfEnv}
    (hinit : tsfInit K opt = (0, q₀)) {h : TsfHistory} (run : Run (tsfStep K) q₀ h q) :
    bytesOf q.kfifo.stored ≤ q₀.kfifo.totalLen ∧ bytesOf q.qdisc.skbs ≤ q₀.limit ∧
      bytesOf q.testQdisc.skbs ≤ q₀.limit := by
  have hfresh := tsfInit_fresh hinit
  have hroomy : Roomy q₀.kfifo.totalLen q₀.kfifo :=
    ⟨hfresh.ring.inv, hfresh.slen.trans_le (Nat.zero_le _), rfl⟩
  have hring := (roomy_logged q₀.kfifo.totalLen).run hroomy run
  have hlimited := limited_of_run hbfifo hinit run
  exact ⟨hring.bytesOf_le, hlimited.qdisc.bytes, hlimited.testQdisc.bytes⟩

theorem queues_bounded_sample :
    ∃ q : Tsf, q.kfifo.stored = [skbSample 1 500] ∧ q.qdisc.skbs = [skbSample 2 600] ∧
      bytesOf q.kfifo.stored ≤ (tsfSample (pairSample 5 500 600) 1000000000).kfifo.totalLen ∧
      bytesOf q.qdisc.skbs ≤ (tsfSample (pairSample 5 500 600) 1000000000).limit ∧
      bytesOf q.testQdisc.skbs ≤ (tsfSample (pairSample 5 500 600) 1000000000).limit := by
  obtain ⟨h, q, run, hq⟩ := exists_run_of_exec (fun q : Tsf => (q.kfifo.stored, q.qdisc.skbs))
    (b := ([skbSample 1 500], [skbSample 2 600]))
    (show (exec (tsfStep (pairSample 5 500 600)) (tsfSample (pairSample 5 500 600) 1000000000)
      [.enqueue (skbSample 9 2800)]).toOption.map _ = _ by decide +kernel)
  obtain ⟨hring, hqdisc⟩ := Prod.mk.inj hq
  exact ⟨q, hring, hqdisc, queues_bounded (bfifoLimited_sample _ _) (tsfSample_init _ _) run⟩

/-- The inner queue begins with the packets `p :: l`, and the bucket cannot hold the time of
the first. -/
structure Clogged (p : Skb) (l : List Skb) (q : Tsf) : Prop where
  queue : p :: l <+: q.qdisc.skbs
  deep : q.buffer < q.rate.l2tNs p.pktLen

theorem clogged_sheltered (p : Skb) (l : List Skb) : Sheltered (Clogged p l) where
  same h hs := ⟨hs.qdisc ▸ h.queue, hs.buffer ▸ hs.rate ▸ h.deep⟩
  park h _ := ⟨h.queue.trans (List.prefix_append _ _), h.deep⟩
  promote := by
    intro q toks skb m h hl hle hpos
    -- a full bucket does not pay for the first packet
    have hdeep := h.deep
    obtain ⟨more, hmore⟩ := h.queue
    rw [hl] at hmore
    obtain ⟨rfl, -⟩ := List.cons.inj hmore
    omega
  arrive h _ := ⟨h.queue, h.deep⟩
  leave h := ⟨h.queue, h.deep⟩

/-- Once the inner queue of a configured scheduler begins with a packet that takes more than
the bucket holds, it gives up no packet in any run, and what it still takes fits in the rest
of its limit. -/
theorem blocked_for_good (hbfifo : K.BfifoLimited) {opt : Option TsfEnv}
    (hinit : tsfInit K opt = (0, q₀)) {h h' : TsfHistory} (run : Run (tsfStep K) q₀ h q)
    (run' : Run (tsfStep K) q h' q') (hqueue : q.qdisc.skbs = p :: l)
    (hdeep : q.buffer < q.rate.l2tNs p.pktLen) :
    ∃ more, q'.qdisc.skbs = p :: l ++ more ∧ bytesOf (p :: l) + bytesOf more ≤ q₀.limit := by
  have hclogged : Clogged p l q := ⟨hqueue ▸ List.prefix_refl _, hdeep⟩
  obtain ⟨more, hmore⟩ := ((clogged_sheltered p l).run hclogged run').queue
  have hlimited := (limited_of_run hbfifo hinit (run.append run')).qdisc.bytes
  rw [← hmore, bytesOf_append] at hlimited
  exact ⟨more, hmore.symm, hlimited⟩

def blockedSample : Tsf :=
  tsfSampleAfter (pairSample 3 1500 1500) 1000000 [.enqueue (skbSample 9 3000)]

theorem blocked_for_good_sample :
    ∃ q' : Tsf, q'.qdisc.skbs = [skbSample 1 1500, skbSample 2 1500, skbSample 3 1500] ∧
      ∃ more, q'.qdisc.skbs = skbSample 1 1500 :: [skbSample 2 1500] ++ more ∧
        bytesOf (skbSample 1 1500 :: [skbSample 2 1500]) + bytesOf more ≤
          (tsfSample (pairSample 3 1500 1500) 1000000).limit := by
  have run : Run (tsfStep (pairSample 3 1500 1500)) (tsfSample (pairSample 3 1500 1500) 1000000)
      [(.enqueue (skbSample 9 3000), .verdict .success)] blockedSample :=
    tsfSampleAfter_run (by decide +kernel)
  obtain ⟨h', q', run', hq'⟩ := exists_run_of_exec (fun q : Tsf => q.qdisc.skbs)
    (b := [skbSample 1 1500, skbSample 2 1500, skbSample 3 1500])
    (show (exec (tsfStep (pairSample 3 1500 1500)) blockedSample
      [.enqueue (skbSample 3 1500), .dequeue 0]).toOption.map _ = _ by decide +kernel)
  exact ⟨q', hq', blocked_for_good (bfifoLimited_sample _ _) (tsfSample_init _ _) run run'
    (by decide +kernel) (by decide +kernel)⟩

end MeasurementLimiter
