import MeasurementLimiter.TsfInit
import MeasurementLimiter.TsfDrain
import MeasurementLimiter.TsfConservation
import MeasurementLimiter.TsfOrder

namespace MeasurementLimiter

open Runs

variable {K : Kernel} {env : TsfEnv} {skb : Skb} {ret : NetXmit} {q₀ q q' : Tsf}

def tsfReset (q : Tsf) : Tsf := { q with watchdog := none }

/-- A scheduler that holds and counts no packet, with a ring in order. -/
structure EmptyTsf (q : Tsf) : Prop where
  ring : RingInv q.kfifo
  stored : q.kfifo.stored = []
  slen : q.kfifo.slen = 0
  qdisc : q.qdisc.skbs = []
  testQdisc : q.testQdisc.skbs = []
  qlen : q.qlen = 0
  backlog : q.backlog = 0

/-- The packets that were passed to `tsf_enqueue`, a super-packet as its segments. -/
def offeredIn (trace : List Event) : Multiset Skb := (trace.filterMap Event.offeredSkb : List Skb)

/-- The scheduler starts again: it is empty, and every later run returns only packets that
were offered in it. -/
def Restarted (K : Kernel) (q : Tsf) : Prop :=
  EmptyTsf q ∧ ∀ h s, Run (tsfStep K) q h s →
    (returnedIn h : Multiset Skb) + offeredIn q.trace ≤ offeredIn s.trace

def Tsf.holding (q : Tsf) : Multiset Skb :=
  (q.kfifo.stored : Multiset Skb) + (q.qdisc.skbs : Multiset Skb) + (q.testQdisc.skbs : Multiset Skb)

theorem holding_withQueue (q : Tsf) (l : List Skb) : (q.withQueue l).holding =
    (q.kfifo.stored : Multiset Skb) + (l : Multiset Skb) + (q.testQdisc.skbs : Multiset Skb) := rfl

/-- The packets that left the queues since state `q₀`, those in them, and those that the running call
has still to place were held then or offered since. -/
structure Draws (q₀ : Tsf) (out : Multiset Skb) (pending : List Skb) (q : Tsf) : Prop where
  ring : RingInv q.kfifo
  le : out + q.holding + (pending : Multiset Skb) + offeredIn q₀.trace ≤
    q₀.holding + offeredIn q.trace

variable {out : Multiset Skb} {pending : List Skb}

theorem Draws.step (d : Draws q₀ out pending q) {out' : Multiset Skb} {pending' : List Skb}
    (hring : RingInv q'.kfifo)
    (hheld : out' + q'.holding + (pending' : Multiset Skb) ≤
      out + q.holding + (pending : Multiset Skb))
    (htrace : q'.trace.filterMap Event.offeredSkb = q.trace.filterMap Event.offeredSkb) :
    Draws q₀ out' pending' q' := by
  refine ⟨hring, (add_le_add_left hheld _).trans ?_⟩
  rw [offeredIn, offeredIn, htrace]
  exact d.le

theorem Draws.same (d : Draws q₀ out pending q) (hkfifo : q'.kfifo = q.kfifo)
    (hqdisc : q'.qdisc.skbs = q.qdisc.skbs) (htest : q'.testQdisc.skbs = q.testQdisc.skbs)
    (htrace : q'.trace.filterMap Event.offeredSkb = q.trace.filterMap Event.offeredSkb) :
    Draws q₀ out pending q' := by
  refine d.step (hkfifo ▸ d.ring) (le_of_eq ?_) htrace
  rw [Tsf.holding, Tsf.holding, hkfifo, hqdisc, htest]

theorem Draws.forget (d : Draws q₀ out (skb :: pending) q) : Draws q₀ out pending q :=
  d.step d.ring (add_le_add_right (Multiset.le_cons_self _ _) _) rfl

theorem Draws.lose (d : Draws q₀ out pending q) {l : List Skb} (hl : q.qdisc.skbs = skb :: l) :
    Draws q₀ out (skb :: pending) (q.withQueue l) := by
  refine d.step d.ring (le_of_eq ?_) rfl
  rw [holding_withQueue, Tsf.holding, hl, packets_cons, packets_cons]
  abel

theorem Draws.ring_next (d : Draws q₀ out (skb :: pending) q) {k : Ring}
    (hk : kfifoEnqueue (some skb) q.kfifo = .ok (ret, k)) (now : ℤ) :
    Draws q₀ out pending (q.afterRing now skb ret k) := by
  have htrace := filterMap_afterRing (f := Event.offeredSkb) (fun _ _ => rfl) now skb ret k q
  rcases d.ring.enqueue_stored hk with ⟨rfl, hstored⟩ | ⟨rfl, rfl⟩
  · refine d.step (d.ring.of_step (ringStep_enqueue hk)) (le_of_eq ?_) htrace
    have hmore : (q.afterRing now skb .success k).holding = (k.stored : Multiset Skb) +
      (q.qdisc.skbs : Multiset Skb) + (q.testQdisc.skbs : Multiset Skb) := rfl
    rw [hmore, hstored, packets_snoc, Tsf.holding, packets_cons]
    abel
  · exact d.forget.same rfl rfl rfl htrace

theorem Draws.park (d : Draws q₀ out (skb :: pending) q) :
    Draws q₀ out pending (tsfPark skb q).2 := by
  rcases tsfPark_cases skb q with ⟨-, hp⟩ | ⟨ret, -, -, hp⟩
  · rw [hp]
    refine d.step d.ring (le_of_eq ?_) rfl
    rw [holding_withQueue, packets_snoc, Tsf.holding, packets_cons]
    abel
  · rw [hp]
    exact d.forget.same rfl rfl rfl rfl

theorem Draws.offer (d : Draws q₀ out [] q) (l : List Skb)
    (htrace : q'.trace = q.trace ++ l.map Event.offered) (hkfifo : q'.kfifo = q.kfifo)
    (hqdisc : q'.qdisc.skbs = q.qdisc.skbs) (htest : q'.testQdisc.skbs = q.testQdisc.skbs) :
    Draws q₀ out l q' := by
  have hoffered : offeredIn q'.trace = offeredIn q.trace + l := by
    rw [offeredIn, htrace, List.filterMap_append, List.filterMap_map]
    exact congrArg _ (congrArg _ List.filterMap_some)
  refine ⟨hkfifo ▸ d.ring, ?_⟩
  have hle := add_le_add_left d.le (l : Multiset Skb)
  rw [Tsf.holding, hkfifo, hqdisc, htest, hoffered]
  rw [Tsf.holding, Multiset.coe_nil] at hle
  convert hle using 1 <;> abel

theorem Draws.segment (d : Draws q₀ out [] q) (heq : tsfSegment K skb q = .ok (ret, q')) :
    Draws q₀ out [] q' := by
  rcases tsfSegment_cases heq with ⟨-, rfl⟩ | ⟨-, nb, q₁, hloop, rfl⟩
  · exact d.same rfl rfl rfl rfl
  · have hbegin : Draws q₀ out ((K.skbGsoSegment skb).map markSegment)
        (q.beginSegments (K.skbGsoSegment skb)) := by
      refine d.offer ((K.skbGsoSegment skb).map markSegment) ?_ rfl rfl rfl
      rw [List.map_map]
      rfl
    have hend := tsfSegmentLoop_rule
      (I := fun segs _ q₁ => Draws q₀ out (segs.map markSegment) q₁) ?_ hbegin hloop
    · obtain ⟨p, b, hq⟩ := endSegments_eq q₁ skb (K.skbGsoSegment skb) nb
      rw [hq]
      exact hend.same rfl rfl rfl rfl
    · intro seg segs nb q₁ ret q₂ d₁ hone
      have htick : Draws q₀ out (markSegment seg :: segs.map markSegment) q₁.tick :=
        d₁.same rfl rfl rfl rfl
      rcases tsfSegmentOne_cases hone with ⟨-, k, hk, rfl⟩ | ⟨-, -, rfl⟩
      · exact (htick.ring_next (q := q₁.tick) hk (q₁.now K)).same rfl rfl rfl rfl
      · exact htick.park.same rfl rfl rfl rfl

theorem Draws.plain (d : Draws q₀ out [] q) (heq : tsfPlain K skb q = .ok (ret, q')) :
    Draws q₀ out [] q' := by
  refine tsfPlain_rule (I := fun _ q₁ => Draws q₀ out [skb] q₁) (J := Draws q₀ out [])
    ?_ ?_ ?_ ?_ ?_ heq
  · exact d.offer [skb] rfl rfl rfl rfl
  · intro toks q₁ p l k d₁ hl _ hk
    exact ((d₁.lose hl).ring_next (q := q₁.withQueue l) hk (q.now K)).same rfl rfl rfl rfl
  · intro toks q₁ p l ret k d₁ hl _ _ hk
    exact (((d₁.lose hl).ring_next (q := q₁.withQueue l) hk (q.now K)).forget).same rfl rfl rfl rfl
  · intro toks q₁ ret k d₁ _ _ hk
    exact (d₁.ring_next hk (q.now K)).same rfl rfl rfl rfl
  · intro toks q₁ expiry d₁ _ _
    exact d₁.park.same rfl rfl rfl rfl

theorem Draws.bypass (d : Draws q₀ out [] q) (skb : Skb) :
    Draws q₀ out [] (tsfBypass skb q).2 := by
  have d' : Draws q₀ out [skb] { q with trace := q.trace ++ [.offered skb] } :=
    d.offer [skb] rfl rfl rfl rfl
  rcases tsfBypass_cases skb q with hb | ⟨ret, -, hb⟩
  · rw [hb]
    refine d'.step d.ring (le_of_eq ?_) rfl
    change out + ((q.kfifo.stored : Multiset Skb) + (q.qdisc.skbs : Multiset Skb) +
      ((q.testQdisc.skbs ++ [skb] : List Skb) : Multiset Skb)) + 0 = out + q.holding + {skb}
    rw [packets_snoc, Tsf.holding]
    abel
  · rw [hb]
    exact d'.forget.same rfl rfl rfl rfl

theorem Draws.dequeue (d : Draws q₀ out [] q) {o : Option Skb} (hcase : DequeueCase K q o q') :
    Draws q₀ (out + (o.toList : Multiset Skb)) [] q' := by
  cases hcase with
  | @bypass skb hhead =>
    refine d.step d.ring (le_of_eq ?_) (by simp [Event.offeredSkb])
    have hcons := bypassHead_cons hhead
    change out + {skb} + ((q.kfifo.stored : Multiset Skb) + (q.qdisc.skbs : Multiset Skb) +
      (q.testQdisc.skbs.tail : Multiset Skb)) + 0 = out + q.holding + 0
    rw [Tsf.holding, hcons, packets_cons, List.tail_cons]
    abel
  | @sent skb k _ hk =>
    refine d.step (d.ring.of_step (ringStep_dequeue hk)) (le_of_eq ?_)
      (by simp [Event.offeredSkb])
    change out + {skb} + ((k.stored : Multiset Skb) + (q.qdisc.skbs : Multiset Skb) +
      (q.testQdisc.skbs : Multiset Skb)) + 0 = out + q.holding + 0
    rw [Tsf.holding, (d.ring.dequeue_some hk).1, packets_cons]
    abel
  | @nothing k _ hk =>
    refine d.step (d.ring.of_step (ringStep_dequeue hk)) (le_of_eq ?_) rfl
    change out + 0 + ((k.stored : Multiset Skb) + (q.qdisc.skbs : Multiset Skb) +
      (q.testQdisc.skbs : Multiset Skb)) + 0 = out + q.holding + 0
    rw [Tsf.holding, (d.ring.dequeue_none hk).1]
    abel
  | @finished k w n _ hk howes =>
    have hk' : RingInv k := d.ring.of_step (ringStep_dequeue hk)
    have hstored' := hk'.stored_pay howes
    refine d.step (hk'.pay howes) (le_of_eq ?_) (by simp [Event.offeredSkb])
    change out + 0 + (((k.modify k.pread kfifoFinishNode).stored : Multiset Skb) +
      (q.qdisc.skbs : Multiset Skb) + (q.testQdisc.skbs : Multiset Skb)) + 0 = out + q.holding + 0
    rw [Tsf.holding, hstored', (d.ring.dequeue_none hk).1]
    abel

theorem Draws.call (d : Draws q₀ out [] q) {c : TsfCall} {a : TsfAnswer}
    (heq : tsfStep K q c = .ok (a, q')) :
    Draws q₀ (out + (returnedIn [(c, a)] : Multiset Skb)) [] q' := by
  have hnone : ∀ c ret, (returnedIn [(c, .verdict ret)] : Multiset Skb) = 0 := fun _ _ => rfl
  cases tsfStep_cases heq with
  | bypass hd =>
    rw [hnone, add_zero]
    exact d.bypass _
  | segments _ hseg =>
    rw [hnone, add_zero]
    exact d.segment hseg
  | plain _ _ hplain =>
    rw [hnone, add_zero]
    exact d.plain hplain
  | @dequeue spins o _ hcase =>
    have hout : returnedIn [(.dequeue spins, .packet o)] = o.toList := returnedIn_dequeue [] spins o
    rw [hout]
    exact d.dequeue hcase

theorem EmptyTsf.restarted (e : EmptyTsf q) : Restarted K q := by
  refine ⟨e, fun h s run => ?_⟩
  have hholding : q.holding = 0 := by
    rw [Tsf.holding, e.stored, e.qdisc, e.testQdisc]
    rfl
  have d : Draws q (returnedIn h) [] s := by
    refine run.invariant (I := fun h s => Draws q (returnedIn h) [] s) ⟨e.ring, ?_⟩
      fun h s c a s' d _ heq => ?_
    · rw [hholding]
      exact le_of_eq (by simp [returnedIn])
    · have hcall := d.call heq
      rw [Multiset.coe_add, returnedIn, returnedIn, ← List.filterMap_append] at hcall
      exact hcall
  refine le_trans ?_ (d.le.trans_eq (by rw [hholding, zero_add]))
  exact add_le_add_left ((Multiset.le_add_right _ _).trans (Multiset.le_add_right _ _)) _

/-- `tsf_change` leaves the scheduler empty: the old ring counts no byte, and the new inner queues
replace all that the scheduler counts; or it makes none, and nothing is parked and counted. -/
def ChangeRestarts (K : Kernel) (env : TsfEnv) (q : Tsf) : Prop :=
  match env.attrs with
  | .ok ⟨some parms, some time, some rate64⟩ =>
    q.kfifo.slen = 0 ∧
      if 0 < (tsfSet K parms time rate64 q).tlen then
        q.qlen = q.testQdisc.skbs.length + q.qdisc.skbs.length ∧
          q.backlog = (q.testQdisc.skbs.map Skb.pktLen).sum + (q.qdisc.skbs.map Skb.pktLen).sum
      else q.testQdisc.skbs = [] ∧ q.qdisc.skbs = [] ∧ q.qlen = 0 ∧ q.backlog = 0
  | _ => False

theorem tsfReset_empty_iff (q : Tsf) : EmptyTsf (tsfReset q) ↔ EmptyTsf q :=
  ⟨fun e => ⟨e.ring, e.stored, e.slen, e.qdisc, e.testQdisc, e.qlen, e.backlog⟩,
    fun e => ⟨e.ring, e.stored, e.slen, e.qdisc, e.testQdisc, e.qlen, e.backlog⟩⟩

theorem tsfChange_empty_iff (h : tsfChange K env q = (0, q')) :
    EmptyTsf q' ↔ ChangeRestarts K env q := by
  obtain ⟨parms, time, rate64, testQdisc, q₁, qdisc, q₂, hattrs, h₁, h₂, h₃⟩ := tsfChange_ok h
  obtain ⟨k, hk, hslen, rfl⟩ := tsfMakeRing_ok h₃
  unfold ChangeRestarts
  rw [hattrs]
  dsimp only
  by_cases htlen : 0 < (tsfSet K parms time rate64 q).tlen
  · rw [if_pos htlen]
    obtain ⟨rfl, rfl⟩ := tsfNewChild_pos htlen h₁
    obtain ⟨rfl, rfl⟩ := tsfNewChild_pos (by exact htlen) h₂
    have hqlen := (treeFlushBacklog_qlen K q.qdisc _).trans
      (congrArg (· - (q.qdisc.skbs.length : ℤ))
        (treeFlushBacklog_qlen K q.testQdisc (tsfSet K parms time rate64 q)))
    have hbacklog := (treeFlushBacklog_backlog K q.qdisc _).trans
      (congrArg (· - ((q.qdisc.skbs.map Skb.pktLen).sum : ℤ))
        (treeFlushBacklog_backlog K q.testQdisc (tsfSet K parms time rate64 q)))
    constructor
    · intro e
      have hqlen' : q.qlen - q.testQdisc.skbs.length - q.qdisc.skbs.length = 0 :=
        hqlen.symm.trans e.qlen
      have hbacklog' : q.backlog - (q.testQdisc.skbs.map Skb.pktLen).sum -
        (q.qdisc.skbs.map Skb.pktLen).sum = 0 := hbacklog.symm.trans e.backlog
      exact ⟨hslen ▸ e.slen, by omega, by omega⟩
    · rintro ⟨hzero, hqlen', hbacklog'⟩
      refine ⟨hk.inv, hk.stored, hslen.trans hzero, rfl, rfl, hqlen.trans ?_, hbacklog.trans ?_⟩
      · change q.qlen - q.testQdisc.skbs.length - q.qdisc.skbs.length = 0
        omega
      · change q.backlog - (q.testQdisc.skbs.map Skb.pktLen).sum -
          (q.qdisc.skbs.map Skb.pktLen).sum = 0
        omega
  · rw [if_neg htlen]
    rw [tsfNewChild_zero htlen] at h₁
    obtain ⟨rfl, rfl⟩ := Prod.mk.inj (Except.ok.inj h₁)
    rw [tsfNewChild_zero (by exact htlen)] at h₂
    obtain ⟨rfl, rfl⟩ := Prod.mk.inj (Except.ok.inj h₂)
    constructor
    · intro e
      exact ⟨hslen ▸ e.slen, e.testQdisc, e.qdisc, e.qlen, e.backlog⟩
    · rintro ⟨hzero, htest, hqdisc, hqlen, hbacklog⟩
      exact ⟨hk.inv, hk.stored, hslen.trans hzero, hqdisc, htest, hqlen, hbacklog⟩

theorem restarted_iff : Restarted K q ↔ EmptyTsf q := ⟨fun r => r.1, EmptyTsf.restarted⟩

/-- `tsf_reset` leaves a scheduler that starts again only where it was empty before, and a
successful `tsf_change` exactly where the old ring counts no byte and the scheduler counts what its
inner queues hold. -/
theorem restarted_iff_empty (K : Kernel) (q : Tsf) :
    (Restarted K (tsfReset q) ↔ EmptyTsf q) ∧
      ∀ env q', tsfChange K env q = (0, q') → (Restarted K q' ↔ ChangeRestarts K env q) :=
  ⟨restarted_iff.trans (tsfReset_empty_iff q), fun _ _ h => restarted_iff.trans (tsfChange_empty_iff h)⟩

def parkedSample : Tsf :=
  { tsfSample (pairSample 3 1400 500) 1000000000 with
    qdisc := { bfifo (pairSample 3 1400 500) 10000000 with skbs := [skbSample 1 1400] }
    qlen := 1
    backlog := 1400 }

theorem restarted_iff_empty_sample :
    ∃ q, tsfChange (pairSample 3 1400 500) (envSample 1000000000) parkedSample = (0, q) ∧
      ¬Restarted (pairSample 3 1400 500) (tsfReset parkedSample) ∧
      Restarted (pairSample 3 1400 500) q := by
  obtain ⟨hreset, hchange⟩ := restarted_iff_empty (pairSample 3 1400 500) parkedSample
  have hok : (tsfChange (pairSample 3 1400 500) (envSample 1000000000) parkedSample).1 = 0 := by
    decide +kernel
  have htlen : 0 < (tsfSet (pairSample 3 1400 500) 0 8000 1000000000 parkedSample).tlen := by
    decide +kernel
  refine ⟨_, Prod.ext hok rfl, fun r => ?_, (hchange _ _ (Prod.ext hok rfl)).mpr ⟨?_, ?_⟩⟩
  · have hqlen : (1 : ℤ) = 0 := (hreset.mp r).qlen
    cases hqlen
  · decide +kernel
  · rw [if_pos htlen]
    decide +kernel

/-- With one segment parked and one stored, `tsf_reset` keeps both, and after a new configuration
the bytes of the stored one are still counted. -/
theorem stale_bytes_counted :
    tsfInit (pairSample 3 1400 500) (some (envSample 1000000000)) =
        (0, tsfSample (pairSample 3 1400 500) 1000000000) ∧
      ∃ h q q', Run (tsfStep (pairSample 3 1400 500))
          (tsfSample (pairSample 3 1400 500) 1000000000) h q ∧
        tsfChange (pairSample 3 1400 500) (envSample 1000000000) q = (0, q') ∧
        ¬Restarted (pairSample 3 1400 500) (tsfReset q) ∧ ¬Restarted (pairSample 3 1400 500) q' := by
  refine ⟨tsfSample_init _ _, ?_⟩
  obtain ⟨h, q, run, hq⟩ := exists_run_of_exec
    (fun q : Tsf => (q.kfifo.slen, (tsfChange (pairSample 3 1400 500) (envSample 1000000000) q).1))
    (b := (500, 0))
    (show (exec (tsfStep (pairSample 3 1400 500)) (tsfSample (pairSample 3 1400 500) 1000000000)
      [.enqueue (skbSample 9 2800)]).toOption.map _ = _ by decide +kernel)
  obtain ⟨hslen, herr⟩ := Prod.mk.inj hq
  have hok : tsfChange (pairSample 3 1400 500) (envSample 1000000000) q =
    (0, (tsfChange (pairSample 3 1400 500) (envSample 1000000000) q).2) := Prod.ext herr rfl
  refine ⟨h, q, _, run, hok, fun r => ?_, fun r => ?_⟩
  · have hzero : q.kfifo.slen = 0 := r.1.slen
    rw [hslen] at hzero
    cases hzero
  · have hzero : q.kfifo.slen = 0 := ((tsfChange_empty_iff hok).mp r.1).1
    rw [hslen] at hzero
    cases hzero

end MeasurementLimiter
