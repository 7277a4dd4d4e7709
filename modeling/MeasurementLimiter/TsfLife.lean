import MeasurementLimiter.Heap
import MeasurementLimiter.TsfRestart

namespace MeasurementLimiter

open Allocator

variable {H : Type} [Allocator H] {K : Kernel} {env : TsfEnv} {h : H} {sch : Option ℕ}
  {s : Multiset ℕ} {err : ℤ} {parms time rate64 : ℕ}

/-- What `kmalloc` returns: NULL, the pointer to no bytes, or a block. -/
inductive Ptr
  | null
  | zeroSize
  | block (a : ℕ)
  deriving DecidableEq

/-- The block that a pointer points to, if there is one. -/
def Ptr.blocks : Ptr → Multiset ℕ
  | .null => 0
  | .zeroSize => 0
  | .block a => {a}

/-- `kmalloc` of `number` nodes where it succeeds. -/
def kmalloc (number : ℕ) (h : H) : Ptr × H :=
  if number = 0 then (.zeroSize, h) else (.block (alloc h).1, (alloc h).2)

/-- `kfree`, none where the block is not in use. -/
def kfree (p : Ptr) (h : H) : Option H :=
  match p with
  | .null => some h
  | .zeroSize => some h
  | .block a => free h a

/-- The block of an inner queue.  `noop_qdisc` has none of its own. -/
def qdiscBlocks (sch : Option ℕ) : Multiset ℕ := sch.elim 0 singleton

/-- `qdisc_put` of the only reference to an inner queue. -/
def qdiscPut (sch : Option ℕ) (h : H) : Option H :=
  match sch with
  | none => some h
  | some a => free h a

/-- A scheduler with its memory: where its ring and its two inner queues are.  The last two
fields record the rings that it has left behind, and the packets in them. -/
structure Life (H : Type) where
  q : Tsf
  heap : H
  pbase : Ptr
  qdisc : Option ℕ
  testQdisc : Option ℕ
  lost : Multiset ℕ
  abandoned : List Skb

/-- Why a scheduler does not go on: a block is freed that is not in use, the tree lock is taken
twice, or a call faults. -/
inductive LifeFault
  | badFree
  | deadlock
  | call (e : Fault)
  deriving DecidableEq

/-- One part of `tsf_change`: a new bfifo in the place of the inner queue `old` at `sch`, if `tlen`
is not zero.  `put` writes what is in that place then. -/
def lifeNewChild (K : Kernel) (child : Option ℤ) (old : Qdisc) (sch : Option ℕ)
    (put : Qdisc → Option ℕ → Life H → Life H) (l : Life H) :
    Except LifeFault (Except (ℤ × Life H) (Life H)) :=
  match tsfNewChild K child old l.q with
  | .error (err, q) => .ok (.error (err, { l with q := q }))
  | .ok (new, q) =>
    if 0 < l.q.tlen then
      match qdiscPut sch (alloc l.heap).2 with
      | none => .error .badFree
      | some heap => .ok (.ok (put new (some (alloc l.heap).1) { l with q := q, heap := heap }))
    else .ok (.ok (put new sch { l with q := q }))

def lifeTestQdisc (K : Kernel) (child : Option ℤ) (l : Life H) :
    Except LifeFault (Except (ℤ × Life H) (Life H)) :=
  lifeNewChild K child l.q.testQdisc l.testQdisc
    (fun new sch l => { l with q := { l.q with testQdisc := new }, testQdisc := sch }) l

def lifeQdisc (K : Kernel) (child : Option ℤ) (l : Life H) :
    Except LifeFault (Except (ℤ × Life H) (Life H)) :=
  lifeNewChild K child l.q.qdisc l.qdisc
    (fun new sch l => { l with q := { l.q with qdisc := new }, qdisc := sch }) l

/-- The end of `tsf_change`.  `kfifo_init` writes over the pointer to the old ring. -/
def lifeMakeRing (mem : Option (ℕ → Knode (List Skb))) (rate64 : ℕ) (l : Life H) : ℤ × Life H :=
  let (err, q) := tsfMakeRing mem rate64 l.q
  match mem with
  | none => (err, { l with q := q })
  | some _ =>
    let (pbase, heap) := kmalloc (l.q.ttime % 2 ^ 32) l.heap
    (err, { l with
      q := q, heap := heap, pbase := pbase
      lost := l.lost + l.pbase.blocks, abandoned := l.abandoned ++ l.q.kfifo.stored })

/-- `tsf_change` on the scheduler and its memory.  `sch_tree_lock` waits for ever where an earlier
call kept the lock. -/
def lifeChange (K : Kernel) (env : TsfEnv) (l : Life H) : Except LifeFault (ℤ × Life H) :=
  match env.attrs with
  | .error err => .ok (err, l)
  | .ok ⟨some parms, some time, some rate64⟩ =>
    if l.q.treeLocked then .error .deadlock
    else
      match lifeTestQdisc K env.child { l with q := tsfSet K parms time rate64 l.q } with
      | .error e => .error e
      | .ok (.error r) => .ok r
      | .ok (.ok l) =>
        match lifeQdisc K env.childJob l with
        | .error e => .error e
        | .ok (.error r) => .ok r
        | .ok (.ok l) => .ok (lifeMakeRing env.mem rate64 l)
  | .ok _ => .ok (einval, l)

def lifeZero (K : Kernel) : Life H := ⟨tsfZero K, empty, .null, none, none, 0, []⟩

def lifeInit (K : Kernel) (opt : Option TsfEnv) : Except LifeFault (ℤ × Life H) :=
  match opt with
  | none => .ok (einval, lifeZero K)
  | some env => lifeChange K env (lifeZero K)

/-- `tsf_destroy`, which the kernel calls at the end and after a `tsf_init` that failed. -/
def lifeDestroy (l : Life H) : Except LifeFault (Life H) :=
  match kfree l.pbase l.heap with
  | none => .error .badFree
  | some heap => .ok { l with q := { l.q with watchdog := none }, heap := heap }

/-- What the kernel does with a scheduler between its beginning and its end. -/
inductive LifeCall
  | call (c : TsfCall)
  | change (env : TsfEnv)
  | reset

inductive LifeAnswer
  | answer (a : TsfAnswer)
  | err (err : ℤ)
  | none
  deriving DecidableEq

def lifeStep (K : Kernel) (l : Life H) : LifeCall → Except LifeFault (LifeAnswer × Life H)
  | .call c =>
    match tsfStep K l.q c with
    | .error e => .error (.call e)
    | .ok (a, q) => .ok (.answer a, { l with q := q })
  | .change env =>
    match lifeChange K env l with
    | .error e => .error e
    | .ok (err, l) => .ok (.err err, l)
  | .reset => .ok (.none, { l with q := tsfReset l.q })

abbrev LifeHistory := List (LifeCall × LifeAnswer)

variable {l l' l₀ : Life H} {opt : Option TsfEnv}

theorem kmalloc_owned (o : Owned h s) (number : ℕ) :
    Owned (kmalloc number h).2 ((kmalloc number h).1.blocks + s) := by
  unfold kmalloc
  split_ifs
  · rwa [Ptr.blocks, zero_add]
  · rw [Ptr.blocks, Multiset.singleton_add]
    exact o.alloc

theorem kmalloc_card (number : ℕ) (h : H) :
    (kmalloc number h).1.blocks.card = if number = 0 then 0 else 1 := by
  unfold kmalloc
  split_ifs <;> rfl

theorem kfree_owned {p : Ptr} (o : Owned h (p.blocks + s)) :
    ∃ h', kfree p h = some h' ∧ Owned h' s := by
  cases p with
  | null => exact ⟨h, rfl, by rwa [Ptr.blocks, zero_add] at o⟩
  | zeroSize => exact ⟨h, rfl, by rwa [Ptr.blocks, zero_add] at o⟩
  | block a =>
    rw [Ptr.blocks, Multiset.singleton_add] at o
    exact o.free

theorem qdiscPut_owned (o : Owned h (qdiscBlocks sch + s)) :
    ∃ h', qdiscPut sch h = some h' ∧ Owned h' s := by
  cases sch with
  | none => exact ⟨h, rfl, by rwa [qdiscBlocks, Option.elim_none, zero_add] at o⟩
  | some a =>
    rw [qdiscBlocks, Option.elim_some, Multiset.singleton_add] at o
    exact o.free

theorem alloc_ne (o : Owned h (qdiscBlocks sch + s)) : some (alloc h).1 ≠ sch := by
  rintro rfl
  refine o.fresh (Multiset.mem_add.mpr (.inl ?_))
  rw [qdiscBlocks, Option.elim_some]
  exact Multiset.mem_singleton_self _

/-- The new inner queue takes the place of the old one among the blocks in use, at another address,
or there is no new one. -/
theorem lifeNewChild_cases (child : Option ℤ) (old : Qdisc)
    (put : Qdisc → Option ℕ → Life H → Life H) (o : Owned l.heap (qdiscBlocks sch + s)) :
    (0 < l.q.tlen ∧ child ≠ none ∧
        ∃ err, lifeNewChild K child old sch put l = .ok (.error (err, l))) ∨
      ((0 < l.q.tlen → child = none) ∧ ∃ new sch' heap q,
        tsfNewChild K child old l.q = .ok (new, q) ∧ Owned heap (qdiscBlocks sch' + s) ∧
        (0 < l.q.tlen → sch' ≠ sch) ∧ (l.q.tlen = 0 → new = old ∧ sch' = sch) ∧
        lifeNewChild K child old sch put l =
          .ok (.ok (put new sch' { l with q := q, heap := heap }))) := by
  unfold lifeNewChild
  by_cases hpos : 0 < l.q.tlen
  · cases child with
    | some err =>
      rw [tsfNewChild_some hpos]
      exact .inl ⟨hpos, Option.some_ne_none err, err, rfl⟩
    | none =>
      have halloc := o.alloc
      rw [← Multiset.add_cons] at halloc
      obtain ⟨heap, hput, o'⟩ := qdiscPut_owned halloc
      rw [tsfNewChild_none hpos]
      refine .inr ⟨fun _ => rfl, _, some (alloc l.heap).1, heap, _, rfl, ?_, fun _ => alloc_ne o,
        fun hzero => absurd hzero hpos.ne', ?_⟩
      · rwa [qdiscBlocks, Option.elim_some, Multiset.singleton_add]
      · simp only [if_pos hpos, hput]
  · rw [tsfNewChild_zero hpos]
    refine .inr ⟨fun h => absurd h hpos, old, sch, l.heap, l.q, rfl, o, fun h => absurd h hpos,
      fun _ => ⟨rfl, rfl⟩, ?_⟩
    simp only [if_neg hpos]

/-- All blocks that the scheduler has made and not given back. -/
def Life.blocks (l : Life H) : Multiset ℕ :=
  qdiscBlocks l.testQdisc + (qdiscBlocks l.qdisc + (l.pbase.blocks + l.lost))

/-- Only inner queues have changed, and what counts their packets. -/
structure Rehoused (l l' : Life H) : Prop where
  ttime : l'.q.ttime = l.q.ttime
  tlen : l'.q.tlen = l.q.tlen
  buffer : l'.q.buffer = l.q.buffer
  limit : l'.q.limit = l.q.limit
  rate : l'.q.rate = l.q.rate
  kfifo : l'.q.kfifo = l.q.kfifo
  treeLocked : l'.q.treeLocked = l.q.treeLocked
  pbase : l'.pbase = l.pbase
  lost : l'.lost = l.lost
  abandoned : l'.abandoned = l.abandoned
  qdisc : l.q.tlen = 0 → l'.q.qdisc = l.q.qdisc ∧ l'.qdisc = l.qdisc
  testQdisc : l.q.tlen = 0 → l'.q.testQdisc = l.q.testQdisc ∧ l'.testQdisc = l.testQdisc
  owned : Owned l'.heap l'.blocks

theorem Rehoused.refl (o : Owned l.heap l.blocks) : Rehoused l l :=
  ⟨rfl, rfl, rfl, rfl, rfl, rfl, rfl, rfl, rfl, rfl, fun _ => ⟨rfl, rfl⟩, fun _ => ⟨rfl, rfl⟩, o⟩

theorem Rehoused.trans {l'' : Life H} (r : Rehoused l l') (r' : Rehoused l' l'') :
    Rehoused l l'' where
  ttime := r'.ttime.trans r.ttime
  tlen := r'.tlen.trans r.tlen
  buffer := r'.buffer.trans r.buffer
  limit := r'.limit.trans r.limit
  rate := r'.rate.trans r.rate
  kfifo := r'.kfifo.trans r.kfifo
  treeLocked := r'.treeLocked.trans r.treeLocked
  pbase := r'.pbase.trans r.pbase
  lost := r'.lost.trans r.lost
  abandoned := r'.abandoned.trans r.abandoned
  qdisc hzero :=
    ⟨(r'.qdisc (r.tlen.trans hzero)).1.trans (r.qdisc hzero).1,
      (r'.qdisc (r.tlen.trans hzero)).2.trans (r.qdisc hzero).2⟩
  testQdisc hzero :=
    ⟨(r'.testQdisc (r.tlen.trans hzero)).1.trans (r.testQdisc hzero).1,
      (r'.testQdisc (r.tlen.trans hzero)).2.trans (r.testQdisc hzero).2⟩
  owned := r'.owned

theorem lifeTestQdisc_cases (K : Kernel) (child : Option ℤ) (o : Owned l.heap l.blocks) :
    (0 < l.q.tlen ∧ child ≠ none ∧ ∃ err, lifeTestQdisc K child l = .ok (.error (err, l))) ∨
      ((0 < l.q.tlen → child = none) ∧ ∃ l', lifeTestQdisc K child l = .ok (.ok l') ∧
        Rehoused l l' ∧ (0 < l.q.tlen → l'.testQdisc ≠ l.testQdisc)) := by
  rcases lifeNewChild_cases child l.q.testQdisc _ o with
    hfails | ⟨hchild, new, sch, heap, q, hq, o', hother, hsame, heq⟩
  · exact .inl hfails
  · obtain ⟨n, b, d, p, p', rfl⟩ := tsfNewChild_keeps hq
    refine .inr ⟨hchild, _, heq, ?_, hother⟩
    exact ⟨rfl, rfl, rfl, rfl, rfl, rfl, rfl, rfl, rfl, rfl, fun _ => ⟨rfl, rfl⟩, hsame, o'⟩

theorem lifeQdisc_cases (K : Kernel) (child : Option ℤ) (o : Owned l.heap l.blocks) :
    (0 < l.q.tlen ∧ child ≠ none ∧ ∃ err, lifeQdisc K child l = .ok (.error (err, l))) ∨
      ((0 < l.q.tlen → child = none) ∧ ∃ l', lifeQdisc K child l = .ok (.ok l') ∧
        Rehoused l l' ∧ l'.testQdisc = l.testQdisc) := by
  rw [Life.blocks, add_left_comm] at o
  rcases lifeNewChild_cases child l.q.qdisc _ o with
    hfails | ⟨hchild, new, sch, heap, q, hq, o', -, hsame, heq⟩
  · exact .inl hfails
  · obtain ⟨n, b, d, p, p', rfl⟩ := tsfNewChild_keeps hq
    rw [add_left_comm] at o'
    refine .inr ⟨hchild, _, heq, ?_, rfl⟩
    exact ⟨rfl, rfl, rfl, rfl, rfl, rfl, rfl, rfl, rfl, rfl, hsame, fun _ => ⟨rfl, rfl⟩, o'⟩

/-- No attribute is missing, and `tsf_change` takes the tree lock. -/
def TsfEnv.accepted (env : TsfEnv) : Bool :=
  match env.attrs with
  | .ok ⟨some _, some _, some _⟩ => true
  | _ => false

theorem accepted_iff : env.accepted ↔
    ∃ parms time rate64, env.attrs = .ok ⟨some parms, some time, some rate64⟩ := by
  unfold TsfEnv.accepted
  split
  · rename_i parms time rate64 hsome
    exact iff_of_true rfl ⟨parms, time, rate64, hsome⟩
  · rename_i hnone
    exact iff_of_false Bool.false_ne_true fun ⟨parms, time, rate64, hsome⟩ =>
      hnone parms time rate64 hsome

theorem lifeChange_refused (K : Kernel) (l : Life H) (h : env.accepted = false) :
    ∃ err, lifeChange K env l = .ok (err, l) := by
  unfold lifeChange
  split
  · exact ⟨_, rfl⟩
  · rename_i parms time rate64 hattrs
    rw [accepted_iff.mpr ⟨parms, time, rate64, hattrs⟩] at h
    cases h
  · exact ⟨_, rfl⟩

theorem lifeChange_deadlock (hattrs : env.attrs = .ok ⟨some parms, some time, some rate64⟩)
    (hlock : l.q.treeLocked = true) : lifeChange K env l = .error .deadlock := by
  unfold lifeChange
  rw [hattrs]
  exact if_pos hlock

theorem lifeChange_accepted (K : Kernel) (o : Owned l.heap l.blocks)
    (hattrs : env.attrs = .ok ⟨some parms, some time, some rate64⟩)
    (hlock : l.q.treeLocked = false) :
    ∃ l₁, Rehoused { l with q := tsfSet K parms time rate64 l.q } l₁ ∧
      ((0 < l₁.q.tlen ∧ ¬(env.child = none ∧ env.childJob = none) ∧
          ∃ err, lifeChange K env l = .ok (err, l₁)) ∨
        ((0 < l₁.q.tlen → env.child = none ∧ env.childJob = none ∧ l₁.testQdisc ≠ l.testQdisc) ∧
          lifeChange K env l = .ok (lifeMakeRing env.mem rate64 l₁))) := by
  unfold lifeChange
  rw [hattrs, hlock]
  simp only [Bool.false_eq_true, if_false]
  have r₀ := Rehoused.refl (l := { l with q := tsfSet K parms time rate64 l.q }) o
  rcases lifeTestQdisc_cases K env.child r₀.owned with
    ⟨hpos, hchild, err, heq⟩ | ⟨hchild, l₁, heq, r₁, hother⟩
  · rw [heq]
    exact ⟨_, r₀, .inl ⟨hpos, fun h => hchild h.1, err, rfl⟩⟩
  · rw [heq]
    dsimp only
    rcases lifeQdisc_cases K env.childJob r₁.owned with
      ⟨hpos, hchild', err, heq'⟩ | ⟨hchild', l₂, heq', r₂, htest⟩
    · rw [heq']
      exact ⟨l₁, r₁, .inl ⟨hpos, fun h => hchild' h.2, err, rfl⟩⟩
    · rw [heq']
      refine ⟨l₂, r₁.trans r₂, .inr ⟨fun hpos => ?_, rfl⟩⟩
      have hpos' : 0 < (tsfSet K parms time rate64 l.q).tlen := (r₁.trans r₂).tlen ▸ hpos
      exact ⟨hchild hpos', hchild' (r₁.tlen ▸ hpos'), htest ▸ hother hpos'⟩

/-- `tsf_change` comes to `kfifo_init` with these parameters, and gets memory for a node there. -/
def TsfEnv.makesRing (env : TsfEnv) : Bool :=
  match env.attrs with
  | .ok ⟨some _, some time, some rate64⟩ =>
    (rate64 * (time / 1000) % 2 ^ 64 / 1000 = 0 ∨ env.child = none ∧ env.childJob = none) ∧
      env.mem.isSome ∧ time / 1000 % 2 ^ 32 ≠ 0
  | _ => false

theorem makesRing_none (h : env.accepted = false) : env.makesRing = false := by
  unfold TsfEnv.makesRing
  split
  · rename_i parms time rate64 hsome
    rw [accepted_iff.mpr ⟨_, time, rate64, hsome⟩] at h
    cases h
  · rfl

theorem makesRing_iff (hattrs : env.attrs = .ok ⟨some parms, some time, some rate64⟩) :
    env.makesRing ↔
      (rate64 * (time / 1000) % 2 ^ 64 / 1000 = 0 ∨ env.child = none ∧ env.childJob = none) ∧
        env.mem.isSome ∧ time / 1000 % 2 ^ 32 ≠ 0 := by
  unfold TsfEnv.makesRing
  rw [hattrs]
  exact decide_eq_true_iff

/-- `tsf_change` waits for ever, refuses the attributes, fails at an inner queue, or ends with the
ring.  It never frees a block that is not in use. -/
theorem lifeChange_cases (K : Kernel) (env : TsfEnv) (o : Owned l.heap l.blocks) :
    lifeChange K env l = .error .deadlock ∨
      (env.makesRing = false ∧ ∃ err, lifeChange K env l = .ok (err, l)) ∨
      ∃ parms time rate64 l₁, env.attrs = .ok ⟨some parms, some time, some rate64⟩ ∧
        Rehoused { l with q := tsfSet K parms time rate64 l.q } l₁ ∧
        ((env.makesRing = false ∧ ∃ err, lifeChange K env l = .ok (err, l₁)) ∨
          ((0 < l₁.q.tlen → env.child = none ∧ env.childJob = none) ∧
            lifeChange K env l = .ok (lifeMakeRing env.mem rate64 l₁))) := by
  cases haccepted : env.accepted with
  | false => exact .inr (.inl ⟨makesRing_none haccepted, lifeChange_refused K l haccepted⟩)
  | true =>
    obtain ⟨parms, time, rate64, hattrs⟩ := accepted_iff.mp haccepted
    cases hlock : l.q.treeLocked with
    | true => exact .inl (lifeChange_deadlock hattrs hlock)
    | false =>
      obtain ⟨l₁, r, hend⟩ := lifeChange_accepted K o hattrs hlock
      refine .inr (.inr ⟨parms, time, rate64, l₁, hattrs, r, ?_⟩)
      rcases hend with ⟨hpos, hchild, herr⟩ | ⟨hchild, hring⟩
      · rw [r.tlen] at hpos
        refine .inl ⟨Bool.eq_false_iff.mpr fun h => ?_, herr⟩
        exact ((makesRing_iff hattrs).mp h).1.elim hpos.ne' hchild
      · exact .inr ⟨fun hpos => ⟨(hchild hpos).1, (hchild hpos).2.1⟩, hring⟩

theorem lifeNewChild_q {child : Option ℤ} {old : Qdisc} {put : Qdisc → Option ℕ → Life H → Life H}
    {r : Except (ℤ × Life H) (Life H)} (h : lifeNewChild K child old sch put l = .ok r) :
    (∃ err l', r = .error (err, l') ∧ tsfNewChild K child old l.q = .error (err, l'.q)) ∨
      ∃ new q sch' heap, r = .ok (put new sch' { l with q := q, heap := heap }) ∧
        tsfNewChild K child old l.q = .ok (new, q) := by
  unfold lifeNewChild at h
  cases hq : tsfNewChild K child old l.q with
  | error e =>
    rw [hq] at h
    obtain rfl := Except.ok.inj h
    exact .inl ⟨_, _, rfl, rfl⟩
  | ok e =>
    rw [hq] at h
    dsimp only at h
    split_ifs at h
    · split at h
      · cases h
      · obtain rfl := Except.ok.inj h
        exact .inr ⟨_, _, _, _, rfl, rfl⟩
    · obtain rfl := Except.ok.inj h
      exact .inr ⟨_, _, sch, l.heap, rfl, rfl⟩

theorem lifeMakeRing_q (mem : Option (ℕ → Knode (List Skb))) (rate64 : ℕ) (l : Life H) :
    tsfMakeRing mem rate64 l.q =
      ((lifeMakeRing mem rate64 l).1, (lifeMakeRing mem rate64 l).2.q) := by
  cases mem <;> rfl

theorem lifeChange_q (h : lifeChange K env l = .ok (err, l')) :
    tsfChange K env l.q = (err, l'.q) := by
  unfold lifeChange at h
  unfold tsfChange
  cases hattrs : env.attrs with
  | error err' =>
    rw [hattrs] at h
    obtain ⟨rfl, rfl⟩ := Prod.mk.inj (Except.ok.inj h)
    rfl
  | ok attrs =>
    rw [hattrs] at h
    obtain ⟨_ | parms, _ | time, _ | rate64⟩ := attrs
    case some.some.some =>
      dsimp only at h ⊢
      split_ifs at h
      cases hfirst : lifeTestQdisc K env.child { l with q := tsfSet K parms time rate64 l.q } with
      | error e =>
        rw [hfirst] at h
        cases h
      | ok r =>
        rw [hfirst] at h
        rcases lifeNewChild_q hfirst with ⟨err', l₁, rfl, hq⟩ | ⟨new, q, sch, heap, rfl, hq⟩
        · obtain ⟨rfl, rfl⟩ := Prod.mk.inj (Except.ok.inj h)
          change tsfNewChild K env.child l.q.testQdisc (tsfSet K parms time rate64 l.q) = _ at hq
          rw [hq]
        · change tsfNewChild K env.child l.q.testQdisc (tsfSet K parms time rate64 l.q) = _ at hq
          rw [hq]
          dsimp only at h ⊢
          split at h
          · cases h
          · rename_i hsecond
            obtain rfl := Except.ok.inj h
            rcases lifeNewChild_q hsecond with ⟨err', l₂, hr, hq'⟩ | ⟨new', q', sch', heap', hr, -⟩
            · obtain ⟨rfl, rfl⟩ := Prod.mk.inj (Except.error.inj hr)
              rw [hq']
            · cases hr
          · rename_i hsecond
            rcases lifeNewChild_q hsecond with ⟨err', l₂, hr, -⟩ | ⟨new', q', sch', heap', hr, hq'⟩
            · cases hr
            · have hring := Except.ok.inj h
              obtain rfl := Except.ok.inj hr
              rw [hq']
              exact (lifeMakeRing_q _ _ _).trans (by rw [hring])
    all_goals
      obtain ⟨rfl, rfl⟩ := Prod.mk.inj (Except.ok.inj h)
      rfl

theorem lifeInit_q (h : lifeInit K opt = .ok (err, l)) : tsfInit K opt = (err, l.q) := by
  cases opt with
  | none =>
    obtain ⟨rfl, rfl⟩ := Prod.mk.inj (Except.ok.inj h)
    rfl
  | some env => exact lifeChange_q (l := lifeZero K) h

def lifeSample : Life Heap :=
  ((lifeInit (pairSample 3 1400 500) (some (envSample 1000000000))).toOption.map Prod.snd).getD
    (lifeZero (pairSample 3 1400 500))

theorem lifeSample_init :
    lifeInit (pairSample 3 1400 500) (some (envSample 1000000000)) = .ok (0, lifeSample) := by
  obtain ⟨⟨err, l⟩, hinit, rfl⟩ := Runs.exists_ok Prod.fst (b := 0)
    (show (lifeInit (pairSample 3 1400 500) (some (envSample 1000000000)) :
      Except LifeFault (ℤ × Life Heap)).toOption.map _ = _ by decide +kernel)
  have hl : lifeSample = l := by
    rw [lifeSample, hinit]
    rfl
  rw [hinit, hl]

end MeasurementLimiter
