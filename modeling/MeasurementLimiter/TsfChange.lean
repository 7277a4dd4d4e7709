import MeasurementLimiter.TsfLife

namespace MeasurementLimiter

open Allocator

variable {H : Type} {K : Kernel} {env : TsfEnv} {l l' l₁ : Life H}
  {mem : Option (ℕ → Knode (List Skb))} {parms time rate64 : ℕ}

/-- The configuration and the queues are the same: the settings, the ring at the same address with
the same nodes, and the same two inner queues with the same packets. -/
@[mk_iff] structure SameConfig (l l' : Life H) : Prop where
  ttime : l'.q.ttime = l.q.ttime
  tlen : l'.q.tlen = l.q.tlen
  buffer : l'.q.buffer = l.q.buffer
  limit : l'.q.limit = l.q.limit
  rate : l'.q.rate = l.q.rate
  pbase : l'.pbase = l.pbase
  node : ∀ i < l.q.kfifo.totalTime, l'.q.kfifo.node i = l.q.kfifo.node i
  totalTime : l'.q.kfifo.totalTime = l.q.kfifo.totalTime
  totalLen : l'.q.kfifo.totalLen = l.q.kfifo.totalLen
  pread : l'.q.kfifo.pread = l.q.kfifo.pread
  pwrite : l'.q.kfifo.pwrite = l.q.kfifo.pwrite
  slen : l'.q.kfifo.slen = l.q.kfifo.slen
  mtu : l'.q.kfifo.mtu = l.q.kfifo.mtu
  kfifoRate : l'.q.kfifo.rate = l.q.kfifo.rate
  qdisc : l'.q.qdisc = l.q.qdisc
  qdiscAt : l'.qdisc = l.qdisc
  testQdisc : l'.q.testQdisc = l.q.testQdisc
  testQdiscAt : l'.testQdisc = l.testQdisc

theorem SameConfig.refl (l : Life H) : SameConfig l l :=
  ⟨rfl, rfl, rfl, rfl, rfl, rfl, fun _ _ => rfl, rfl, rfl, rfl, rfl, rfl, rfl, rfl, rfl, rfl, rfl,
    rfl⟩

def RingFits (mem : Option (ℕ → Knode (List Skb))) (number : ℕ) : Prop := mem.isSome ∧ 2 ≤ number

instance (mem : Option (ℕ → Knode (List Skb))) (number : ℕ) : Decidable (RingFits mem number) := by
  unfold RingFits
  infer_instance

structure Nodeless (l : Life H) : Prop where
  pbase : l.pbase = .zeroSize
  totalTime : l.q.kfifo.totalTime = 0
  totalLen : l.q.kfifo.totalLen = 0
  pread : l.q.kfifo.pread = 0
  pwrite : l.q.kfifo.pwrite = 0

/-- The calls that are refused at once, wait for the tree lock for ever, or get all that they ask
for; and those without inner queues that configure a scheduler as it was configured before, where
`kfifo_init` gets no memory, or asks for none and finds none. -/
def ChangeHarmless (K : Kernel) (env : TsfEnv) (l : Life H) : Prop :=
  match env.attrs with
  | .ok ⟨some parms, some time, some rate64⟩ =>
    let tlen := rate64 * (time / 1000) % 2 ^ 64 / 1000
    let number := time / 1000 % 2 ^ 32
    l.q.treeLocked = true ∨
      (0 < tlen → env.child = none ∧ env.childJob = none) ∧
        (RingFits env.mem number ∨
          tlen = 0 ∧ Configured K parms time rate64 l.q ∧
            (env.mem = none ∨ number = 0 ∧ Nodeless l))
  | _ => True

theorem changeHarmless_iff (hattrs : env.attrs = .ok ⟨some parms, some time, some rate64⟩) :
    ChangeHarmless K env l ↔ l.q.treeLocked = true ∨
      (0 < rate64 * (time / 1000) % 2 ^ 64 / 1000 → env.child = none ∧ env.childJob = none) ∧
        (RingFits env.mem (time / 1000 % 2 ^ 32) ∨
          rate64 * (time / 1000) % 2 ^ 64 / 1000 = 0 ∧ Configured K parms time rate64 l.q ∧
            (env.mem = none ∨ time / 1000 % 2 ^ 32 = 0 ∧ Nodeless l)) := by
  unfold ChangeHarmless
  rw [hattrs]

variable [Allocator H]

/-- What `tsf_change` promises wherever it returns: after an error the configuration is as before,
and in any case the tree lock is released if it was taken. -/
def ChangeAtomic (K : Kernel) (env : TsfEnv) (l : Life H) : Prop :=
  ∀ err l', lifeChange K env l = .ok (err, l') →
    (err < 0 → SameConfig l l') ∧
      l'.q.treeLocked = if env.accepted then false else l.q.treeLocked

theorem lifeMakeRing_fits (h : RingFits mem (l.q.ttime % 2 ^ 32)) :
    (lifeMakeRing mem rate64 l).1 = 0 := by
  obtain ⟨fifo, rfl⟩ := Option.isSome_iff_exists.mp h.1
  have hnumber : ¬l.q.ttime % 2 ^ 32 < 2 := not_lt.mpr h.2
  simp only [lifeMakeRing, tsfMakeRing, kfifoInit, if_neg hnumber]
  rfl

theorem lifeMakeRing_short (fifo : ℕ → Knode (List Skb)) (h : l.q.ttime % 2 ^ 32 < 2) :
    lifeMakeRing (some fifo) rate64 l = (-1,
      { l with
        q := { l.q with
          kfifo := { l.q.kfifo with
            pbase := true, node := fifo, pread := 0, pwrite := 0
            totalLen := l.q.ttime % 2 ^ 32 * (rate64 % 2 ^ 32) % 2 ^ 32 / 1000
            totalTime := l.q.ttime % 2 ^ 32 }
          treeLocked := false }
        heap := (kmalloc (l.q.ttime % 2 ^ 32) l.heap).2
        pbase := (kmalloc (l.q.ttime % 2 ^ 32) l.heap).1
        lost := l.lost + l.pbase.blocks
        abandoned := l.abandoned ++ l.q.kfifo.stored }) := by
  simp only [lifeMakeRing, tsfMakeRing, kfifoInit, if_pos h]
  rfl

theorem lifeMakeRing_failed (h : ¬RingFits mem (l.q.ttime % 2 ^ 32)) :
    (lifeMakeRing mem rate64 l).1 < 0 := by
  cases mem with
  | none => exact show (-1 : ℤ) < 0 by decide
  | some fifo =>
    rw [lifeMakeRing_short fifo (by simpa [RingFits] using h)]
    exact show (-1 : ℤ) < 0 by decide

theorem lifeMakeRing_unlocks (mem : Option (ℕ → Knode (List Skb))) (rate64 : ℕ) (l : Life H) :
    (lifeMakeRing mem rate64 l).2.q.treeLocked = false := by
  cases mem <;> rfl

theorem kmalloc_eq_iff (o : Owned l.heap l.blocks) (number : ℕ) :
    (kmalloc number l.heap).1 = l.pbase ↔ number = 0 ∧ l.pbase = .zeroSize := by
  unfold kmalloc
  split_ifs with hzero
  · exact ⟨fun h => ⟨hzero, h.symm⟩, fun h => h.2.symm⟩
  · refine iff_of_false (fun h => o.fresh ?_) fun h => hzero h.1
    rw [Life.blocks, ← h]
    simp [Ptr.blocks]

section Ring

variable (r : Rehoused { l with q := tsfSet K parms time rate64 l.q } l₁)

include r

theorem Rehoused.configured : Configured K parms time rate64 l₁.q := by
  have c := tsfSet_configured K parms time rate64 l.q
  exact ⟨r.ttime.trans c.ttime, r.tlen.trans c.tlen, r.buffer.trans c.buffer,
    r.limit.trans c.limit, r.rate.trans c.rate, (congrArg Kfifo.rate r.kfifo).trans c.kfifoRate,
    (congrArg Kfifo.mtu r.kfifo).trans c.mtu⟩

/-- Where no inner queue is made, the configuration is the same before the ring exactly if the
scheduler had it. -/
theorem Rehoused.same_iff (htlen : l₁.q.tlen = 0) :
    SameConfig l l₁ ↔ Configured K parms time rate64 l.q := by
  have c₁ := r.configured
  have hzero : (tsfSet K parms time rate64 l.q).tlen = 0 := r.tlen.symm.trans htlen
  constructor
  · intro c
    exact ⟨c.ttime.symm.trans c₁.ttime, c.tlen.symm.trans c₁.tlen, c.buffer.symm.trans c₁.buffer,
      c.limit.symm.trans c₁.limit, c.rate.symm.trans c₁.rate,
      c.kfifoRate.symm.trans c₁.kfifoRate, c.mtu.symm.trans c₁.mtu⟩
  · intro c
    obtain ⟨hqdisc, hqdiscAt⟩ := r.qdisc hzero
    obtain ⟨htest, htestAt⟩ := r.testQdisc hzero
    exact ⟨c₁.ttime.trans c.ttime.symm, c₁.tlen.trans c.tlen.symm, c₁.buffer.trans c.buffer.symm,
      c₁.limit.trans c.limit.symm, c₁.rate.trans c.rate.symm, r.pbase,
      fun i _ => congrFun (congrArg Kfifo.node r.kfifo :) i, (congrArg Kfifo.totalTime r.kfifo :),
      (congrArg Kfifo.totalLen r.kfifo :), (congrArg Kfifo.pread r.kfifo :),
      (congrArg Kfifo.pwrite r.kfifo :), (congrArg Kfifo.slen r.kfifo :),
      c₁.mtu.trans c.mtu.symm, c₁.kfifoRate.trans c.kfifoRate.symm, hqdisc, hqdiscAt, htest, htestAt⟩

/-- A configuration that fails in `kfifo_init` is the old one exactly if it made no inner queue and
no array, and had nothing else to write. -/
theorem Rehoused.ring_same_iff
    (hother : 0 < l₁.q.tlen → l₁.testQdisc ≠ l.testQdisc)
    (hfits : ¬RingFits mem (time / 1000 % 2 ^ 32)) :
    SameConfig l (lifeMakeRing mem rate64 l₁).2 ↔
      l₁.q.tlen = 0 ∧ Configured K parms time rate64 l.q ∧
        (mem = none ∨ time / 1000 % 2 ^ 32 = 0 ∧ Nodeless l) := by
  by_cases htlen : l₁.q.tlen = 0
  swap
  · refine iff_of_false (fun c => hother (Nat.pos_of_ne_zero htlen) ?_) fun h => htlen h.1
    have htest := c.testQdiscAt
    cases mem <;> exact htest
  rw [and_iff_right htlen, ← r.same_iff htlen]
  have httime : l₁.q.ttime = time / 1000 := r.ttime
  cases mem with
  | none =>
    rw [and_iff_left (.inl rfl)]
    exact (sameConfig_iff l _).trans (sameConfig_iff l l₁).symm
  | some fifo =>
    have hshort : l₁.q.ttime % 2 ^ 32 < 2 := by
      rw [httime]
      simpa [RingFits] using hfits
    have hmalloc := kmalloc_eq_iff r.owned (l₁.q.ttime % 2 ^ 32)
    have hk := r.kfifo
    rw [lifeMakeRing_short fifo hshort]
    rw [httime, r.pbase] at hmalloc
    rw [or_iff_right (Option.some_ne_none fifo), httime]
    constructor
    · intro c
      obtain ⟨hnumber, hpbase⟩ := hmalloc.mp c.pbase
      have htotalTime : l.q.kfifo.totalTime = 0 := c.totalTime.symm.trans hnumber
      have htotalLen : l.q.kfifo.totalLen = 0 := by
        rw [← c.totalLen]
        simp only [hnumber, Nat.zero_mul, Nat.zero_mod, Nat.zero_div]
      refine ⟨⟨c.ttime, c.tlen, c.buffer, c.limit, c.rate, r.pbase, fun i _ => ?_, ?_, ?_, ?_, ?_,
          c.slen, c.mtu, c.kfifoRate, c.qdisc, c.qdiscAt, c.testQdisc, c.testQdiscAt⟩,
        hnumber, hpbase, htotalTime, htotalLen, c.pread.symm, c.pwrite.symm⟩
      all_goals
        rw [hk]
        rfl
    · rintro ⟨c, hnumber, n⟩
      refine ⟨c.ttime, c.tlen, c.buffer, c.limit, c.rate, hmalloc.mpr ⟨hnumber, n.pbase⟩,
        fun i hi => ?_, ?_, ?_, n.pread.symm, n.pwrite.symm, c.slen, c.mtu, c.kfifoRate, c.qdisc,
        c.qdiscAt, c.testQdisc, c.testQdiscAt⟩
      · rw [n.totalTime] at hi
        exact absurd hi (Nat.not_lt_zero i)
      · exact hnumber.trans n.totalTime.symm
      · rw [n.totalLen]
        simp only [hnumber, Nat.zero_mul, Nat.zero_mod, Nat.zero_div]

end Ring

theorem change_refused_atomic (K : Kernel) (l : Life H) (h : env.accepted = false) :
    ChangeAtomic K env l ∧ ChangeHarmless K env l := by
  obtain ⟨err, heq⟩ := lifeChange_refused K l h
  refine ⟨fun err' l' heq' => ?_, ?_⟩
  · rw [heq] at heq'
    obtain ⟨-, rfl⟩ := Prod.mk.inj (Except.ok.inj heq')
    rw [h]
    exact ⟨fun _ => .refl l, rfl⟩
  · unfold ChangeHarmless
    split
    · rename_i parms time rate64 hattrs
      rw [accepted_iff.mpr ⟨parms, time, rate64, hattrs⟩] at h
      cases h
    · trivial

/-- A call that comes to the ring keeps its promise if `kfifo_init` succeeds, and else exactly if
it leaves the old configuration. -/
theorem change_ring_atomic (haccepted : env.accepted)
    (heq : lifeChange K env l = .ok (lifeMakeRing env.mem rate64 l₁)) :
    ChangeAtomic K env l ↔ RingFits env.mem (l₁.q.ttime % 2 ^ 32) ∨
      SameConfig l (lifeMakeRing env.mem rate64 l₁).2 := by
  have hunlocks := lifeMakeRing_unlocks env.mem rate64 l₁
  have hend : ChangeAtomic K env l ↔ ((lifeMakeRing env.mem rate64 l₁).1 < 0 →
      SameConfig l (lifeMakeRing env.mem rate64 l₁).2) := by
    unfold ChangeAtomic
    rw [heq, haccepted]
    refine ⟨fun h => (h _ _ rfl).1, fun h err l' h' => ?_⟩
    have hpair := Except.ok.inj h'
    have herr : (lifeMakeRing env.mem rate64 l₁).1 = err := congrArg Prod.fst hpair
    have hleft : (lifeMakeRing env.mem rate64 l₁).2 = l' := congrArg Prod.snd hpair
    rw [← herr, ← hleft]
    exact ⟨h, hunlocks⟩
  rw [hend]
  by_cases hfits : RingFits env.mem (l₁.q.ttime % 2 ^ 32)
  · rw [lifeMakeRing_fits hfits]
    exact iff_of_true (fun herr => absurd herr (lt_irrefl 0)) (.inl hfits)
  · rw [or_iff_right hfits]
    exact ⟨fun h => h (lifeMakeRing_failed hfits), fun c _ => c⟩

/-- A call of `tsf_change` keeps its promise exactly when it is harmless. -/
theorem change_atomic_iff (K : Kernel) (env : TsfEnv) (o : Owned l.heap l.blocks) :
    ChangeAtomic K env l ↔ ChangeHarmless K env l := by
  cases haccepted : env.accepted with
  | false =>
    obtain ⟨hatomic, hharmless⟩ := change_refused_atomic K l haccepted
    exact iff_of_true hatomic hharmless
  | true =>
    obtain ⟨parms, time, rate64, hattrs⟩ := accepted_iff.mp haccepted
    rw [changeHarmless_iff hattrs]
    cases hlock : l.q.treeLocked with
    | true =>
      refine iff_of_true (fun err l' h => ?_) (.inl rfl)
      rw [lifeChange_deadlock hattrs hlock] at h
      cases h
    | false =>
      rw [or_iff_right Bool.false_ne_true]
      obtain ⟨l₁, r, hend⟩ := lifeChange_accepted K o hattrs hlock
      have htlen := r.configured.tlen
      have httime := r.configured.ttime
      rw [← htlen, ← httime]
      rcases hend with ⟨hpos, hchild, err, heq⟩ | ⟨hchild, heq⟩
      · refine iff_of_false (fun h => ?_) fun h => hchild (h.1 hpos)
        have hreleased := (h err l₁ heq).2
        rw [haccepted, r.treeLocked] at hreleased
        cases hreleased
      · have hmade : 0 < l₁.q.tlen → env.child = none ∧ env.childJob = none :=
          fun hpos => ⟨(hchild hpos).1, (hchild hpos).2.1⟩
        rw [change_ring_atomic haccepted heq, and_iff_right hmade]
        refine or_congr_right' fun hfits => ?_
        rw [httime] at hfits ⊢
        exact r.ring_same_iff (fun hpos => (hchild hpos).2.2) hfits

theorem change_atomic_iff_sample :
    ∃ l : Life Heap, l.q.kfifo.stored = [skbSample 2 500] ∧ l.q.qdisc.skbs = [skbSample 1 1400] ∧
      ChangeAtomic (pairSample 3 1400 500) (envSample 1000000000) l := by
  obtain ⟨h, l, run, hl⟩ := Runs.exists_run_of_exec
    (fun l : Life Heap =>
      (l.q.kfifo.stored, l.q.qdisc.skbs, decide ((inUse l.heap).val = l.blocks)))
    (b := ([skbSample 2 500], [skbSample 1 1400], true))
    (show (Runs.exec (lifeStep (pairSample 3 1400 500)) lifeSample
      [.call (.enqueue (skbSample 9 2800))]).toOption.map _ = _ by decide +kernel)
  obtain ⟨hstored, hrest⟩ := Prod.mk.inj hl
  obtain ⟨hparked, howned⟩ := Prod.mk.inj hrest
  have o : (inUse l.heap).val = l.blocks := of_decide_eq_true howned
  refine ⟨l, hstored, hparked, (change_atomic_iff _ _ o).mpr ?_⟩
  exact .inr ⟨fun _ => ⟨rfl, rfl⟩, .inl ⟨rfl, by decide⟩⟩

/-- A configuration of 16 milliseconds for which the first inner queue cannot be made. -/
def envFailed : TsfEnv where
  attrs := .ok ⟨some 0, some 16000, some 1000000000⟩
  child := some (-12)
  childJob := none
  mem := none
  attrs_neg _ h := Except.noConfusion rfl rfl (heq_of_eq h)
  child_neg err h := by
    rw [← Option.some.inj (Option.mem_def.mp h)]
    decide
  childJob_neg := none_neg

/-- It leaves half of the new configuration and the tree lock. -/
theorem failed_child_keeps_lock :
    lifeInit (pairSample 3 1400 500) (some (envSample 1000000000)) = .ok (0, lifeSample) ∧
      ∃ l, lifeChange (pairSample 3 1400 500) envFailed lifeSample = .ok (-12, l) ∧
        ¬SameConfig lifeSample l ∧ l.q.treeLocked = true ∧
        ¬ChangeAtomic (pairSample 3 1400 500) envFailed lifeSample := by
  obtain ⟨⟨err, l⟩, heq, hb⟩ := Runs.exists_ok
    (fun r : ℤ × Life Heap => (r.1, lifeSample.q.ttime, r.2.q.ttime, r.2.q.treeLocked))
    (b := (-12, 8, 16, true))
    (show (lifeChange (pairSample 3 1400 500) envFailed lifeSample).toOption.map _ = _ by
      decide +kernel)
  simp only [Prod.mk.injEq] at hb
  obtain ⟨rfl, hold, hnew, hlocked⟩ := hb
  have hconfig : ¬SameConfig lifeSample l := fun c => by
    have httime := c.ttime
    rw [hold, hnew] at httime
    cases httime
  exact ⟨lifeSample_init, l, heq, hconfig, hlocked,
    fun h => hconfig ((h (-12) l heq).1 (by decide))⟩

end MeasurementLimiter
