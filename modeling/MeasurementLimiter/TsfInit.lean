import MeasurementLimiter.Tsf

namespace MeasurementLimiter

/-- The attributes in `tb`: the 32-bit rate in `TCA_TSF_PARMS`, and two 64-bit values. -/
structure TsfAttrs where
  parms : Option ℕ
  time : Option ℕ
  rate64 : Option ℕ

/-- What the kernel gives to one configuration: the parsed attributes or an error, the
results of `fifo_create_dflt`, none for a queue and else an error, and the memory. -/
structure TsfEnv where
  attrs : Except ℤ TsfAttrs
  child : Option ℤ
  childJob : Option ℤ
  mem : Option (ℕ → Knode (List Skb))
  attrs_neg : ∀ err, attrs = .error err → err < 0
  child_neg : ∀ err ∈ child, err < 0
  childJob_neg : ∀ err ∈ childJob, err < 0

def ipMaxMtu : ℕ := 65535

def einval : ℤ := -22

/-- `qdisc_tree_flush_backlog` on an inner queue, whose parent is the scheduler. -/
def Tsf.treeFlushBacklog (K : Kernel) (child : Qdisc) (q : Tsf) : Tsf :=
  let c := K.qdiscTreeFlushBacklog child.skbs
    ⟨q.qlen, q.backlog, q.drops, q.parentQlen, q.parentBacklog⟩
  { q with
    qlen := c.qlen
    backlog := c.backlog
    drops := c.drops
    parentQlen := c.parentQlen
    parentBacklog := c.parentBacklog }

/-- The assignments of `tsf_change` before it makes the inner queues. -/
def tsfSet (K : Kernel) (parms time rate64 : ℕ) (q : Tsf) : Tsf :=
  let ttime := time / 1000
  let rate := K.pschedRatecfgPrecompute parms rate64
  { q with
    treeLocked := true
    ttime := ttime
    rate := rate
    tlen := rate64 * ttime % 2 ^ 64 / 1000
    buffer := wrapInt64 (rate64 / K.hz : ℕ)
    limit := rate64 / K.hz % 2 ^ 32
    kfifo := { q.kfifo with rate := rate, mtu := min K.devMtu ipMaxMtu } }

/-- A new bfifo in the place of the inner queue `old`, if `tlen` is not zero. -/
def tsfNewChild (K : Kernel) (child : Option ℤ) (old : Qdisc) (q : Tsf) :
    Except (ℤ × Tsf) (Qdisc × Tsf) :=
  if 0 < q.tlen then
    match child with
    | some err => .error (err, q)
    | none => .ok (bfifo K q.limit, q.treeFlushBacklog K old)
  else .ok (old, q)

/-- The end of `tsf_change`, whose 64-bit values become the 32-bit parameters of
`kfifo_init`. -/
def tsfMakeRing (mem : Option (ℕ → Knode (List Skb))) (rate64 : ℕ) (q : Tsf) : ℤ × Tsf :=
  let (err, kfifo) := kfifoInit mem (q.ttime % 2 ^ 32) (rate64 % 2 ^ 32) q.kfifo
  (if err < 0 then err else 0, { q with kfifo := kfifo, treeLocked := false })

/-- `tsf_change`.  Where it goes to `done` the tree lock stays taken. -/
def tsfChange (K : Kernel) (env : TsfEnv) (q : Tsf) : ℤ × Tsf :=
  match env.attrs with
  | .error err => (err, q)
  | .ok ⟨some parms, some time, some rate64⟩ =>
    match tsfNewChild K env.child q.testQdisc (tsfSet K parms time rate64 q) with
    | .error r => r
    | .ok (testQdisc, q) =>
      match tsfNewChild K env.childJob q.qdisc { q with testQdisc := testQdisc } with
      | .error r => r
      | .ok (qdisc, q) => tsfMakeRing env.mem rate64 { q with qdisc := qdisc }
  | .ok _ => (einval, q)

/-- The private data of a new queueing discipline, zeroed, with the child queues that
`tsf_init` gives it. -/
def tsfZero (K : Kernel) : Tsf where
  ttime := 0
  tlen := 0
  tokens := 0
  tC := 0
  kfifo := ⟨(), false, fun _ => ⟨0, 0, 0, 0, none, none, []⟩, 0, 0, 0, 0, 0, 0, ⟨0, fun _ => 0⟩⟩
  rate := ⟨0, fun _ => 0⟩
  buffer := 0
  limit := 0
  qdisc := noopQdisc K
  testQdisc := noopQdisc K
  watchdog := none
  qlen := 0
  backlog := 0
  drops := 0
  overlimits := 0
  parentQlen := 0
  parentBacklog := 0
  treeLocked := false
  toFree := []
  readings := 0
  trace := []

/-- `tsf_init`, with the options or NULL. -/
def tsfInit (K : Kernel) (opt : Option TsfEnv) : ℤ × Tsf :=
  match opt with
  | none => (einval, tsfZero K)
  | some env => tsfChange K env (tsfZero K)

/-- A scheduler as `tsf_init` leaves it. -/
structure TsfFresh (q : Tsf) : Prop where
  ring : EmptyRing q.kfifo
  slen : q.kfifo.slen = 0
  tokens : q.tokens = 0
  tC : q.tC = 0
  qdisc : q.qdisc.skbs = []
  testQdisc : q.testQdisc.skbs = []
  qlen : q.qlen = 0
  backlog : q.backlog = 0
  toFree : q.toFree = []
  trace : q.trace = []

theorem tsfNewChild_zero {K : Kernel} {q : Tsf} (h : ¬0 < q.tlen) (child : Option ℤ) (old : Qdisc) :
    tsfNewChild K child old q = .ok (old, q) :=
  if_neg h

theorem tsfNewChild_some {K : Kernel} {q : Tsf} (h : 0 < q.tlen) (err : ℤ) (old : Qdisc) :
    tsfNewChild K (some err) old q = .error (err, q) :=
  if_pos h

theorem tsfNewChild_none {K : Kernel} {q : Tsf} (h : 0 < q.tlen) (old : Qdisc) :
    tsfNewChild K none old q = .ok (bfifo K q.limit, q.treeFlushBacklog K old) :=
  if_pos h

theorem tsfNewChild_pos {K : Kernel} {child : Option ℤ} {old sch : Qdisc} {q q' : Tsf}
    (hpos : 0 < q.tlen) (h : tsfNewChild K child old q = .ok (sch, q')) :
    sch = bfifo K q.limit ∧ q' = q.treeFlushBacklog K old := by
  cases child with
  | none =>
    rw [tsfNewChild_none hpos] at h
    obtain ⟨rfl, rfl⟩ := Prod.mk.inj (Except.ok.inj h)
    exact ⟨rfl, rfl⟩
  | some err =>
    rw [tsfNewChild_some hpos] at h
    cases h

theorem treeFlushBacklog_qlen (K : Kernel) (child : Qdisc) (q : Tsf) :
    (q.treeFlushBacklog K child).qlen = q.qlen - child.skbs.length :=
  K.flush_qlen _ _

theorem treeFlushBacklog_backlog (K : Kernel) (child : Qdisc) (q : Tsf) :
    (q.treeFlushBacklog K child).backlog = q.backlog - (child.skbs.map Skb.pktLen).sum :=
  K.flush_backlog _ _

theorem tsfNewChild_eq {K : Kernel} {child : Option ℤ} {old sch : Qdisc} {q q' : Tsf}
    (hold : old.skbs = [])
    (h : tsfNewChild K child old q = .ok (sch, q')) :
    sch.skbs = [] ∧ ∃ d p b, q' = { q with drops := d, parentQlen := p, parentBacklog := b } := by
  by_cases hpos : 0 < q.tlen
  · obtain ⟨rfl, rfl⟩ := tsfNewChild_pos hpos h
    have hqlen : (q.treeFlushBacklog K old).qlen = q.qlen := by
      rw [treeFlushBacklog_qlen, hold]
      exact sub_zero _
    have hbacklog : (q.treeFlushBacklog K old).backlog = q.backlog := by
      rw [treeFlushBacklog_backlog, hold]
      exact sub_zero _
    let q₁ := q.treeFlushBacklog K old
    refine ⟨rfl, q₁.drops, q₁.parentQlen, q₁.parentBacklog, ?_⟩
    calc q.treeFlushBacklog K old = { q with
          qlen := q₁.qlen, backlog := q₁.backlog, drops := q₁.drops
          parentQlen := q₁.parentQlen, parentBacklog := q₁.parentBacklog } := rfl
      _ = _ := by rw [hqlen, hbacklog]
  · rw [tsfNewChild_zero hpos] at h
    obtain ⟨rfl, rfl⟩ := Prod.mk.inj (Except.ok.inj h)
    exact ⟨hold, q.drops, q.parentQlen, q.parentBacklog, rfl⟩

theorem tsfNewChild_error {K : Kernel} {child : Option ℤ} (hchild : ∀ err ∈ child, err < 0)
    {old : Qdisc} {q : Tsf} {r : ℤ × Tsf} (h : tsfNewChild K child old q = .error r) : r.1 < 0 := by
  unfold tsfNewChild at h
  split_ifs at h
  split at h
  · cases h
    exact hchild _ rfl
  · cases h

theorem kfifoInit_ok {M U : Type} [Kunit M U] {mem : Option (ℕ → Knode U)} {time rate : ℕ}
    {k k' : Kfifo M U} {err : ℤ} (herr : 0 ≤ err) (h : kfifoInit mem time rate k = (err, k')) :
    EmptyRing k' ∧ k'.slen = k.slen := by
  cases mem with
  | none => cases h; exact absurd herr (by decide)
  | some fifo =>
    by_cases htime : time < 2
    · simp only [kfifoInit, if_pos htime] at h
      obtain ⟨rfl, -⟩ := Prod.mk.inj h
      exact absurd herr (by decide)
    · have hempty := kfifoInit_empty k fifo (not_lt.mp htime) rate
      rw [h] at hempty
      simp only [kfifoInit, if_neg htime] at h
      refine ⟨hempty, ?_⟩
      rw [← (Prod.mk.inj h).2]

theorem tsfMakeRing_ok {mem : Option (ℕ → Knode (List Skb))} {rate64 : ℕ} {q q' : Tsf}
    (h : tsfMakeRing mem rate64 q = (0, q')) :
    ∃ k, EmptyRing k ∧ k.slen = q.kfifo.slen ∧ q' = { q with kfifo := k, treeLocked := false } := by
  unfold tsfMakeRing at h
  cases hk : kfifoInit mem (q.ttime % 2 ^ 32) (rate64 % 2 ^ 32) q.kfifo with
  | mk err k =>
    simp only [hk] at h
    obtain ⟨herr, rfl⟩ := Prod.mk.inj h
    split_ifs at herr with hneg
    · exact absurd hneg (by omega)
    · obtain ⟨hempty, hslen⟩ := kfifoInit_ok (not_lt.mp hneg) hk
      exact ⟨k, hempty, hslen, rfl⟩

theorem tsfChange_ok {K : Kernel} {env : TsfEnv} {q q' : Tsf} (h : tsfChange K env q = (0, q')) :
    ∃ parms time rate64 testQdisc q₁ qdisc q₂,
      env.attrs = .ok ⟨some parms, some time, some rate64⟩ ∧
      tsfNewChild K env.child q.testQdisc (tsfSet K parms time rate64 q) = .ok (testQdisc, q₁) ∧
      tsfNewChild K env.childJob q₁.qdisc { q₁ with testQdisc := testQdisc } = .ok (qdisc, q₂) ∧
      tsfMakeRing env.mem rate64 { q₂ with qdisc := qdisc } = (0, q') := by
  -- each error number is negative, so that 0 comes from the branch that makes the ring
  unfold tsfChange at h
  split at h
  · rename_i err herr
    have := env.attrs_neg _ herr
    rw [(Prod.mk.inj h).1] at this
    exact absurd this (lt_irrefl 0)
  · rename_i parms time rate64 hattrs
    split at h
    · rename_i r hr
      have := tsfNewChild_error env.child_neg hr
      rw [h] at this
      exact absurd this (lt_irrefl 0)
    · rename_i testQdisc q₁ h₁
      split at h
      · rename_i r hr
        have := tsfNewChild_error env.childJob_neg hr
        rw [h] at this
        exact absurd this (lt_irrefl 0)
      · rename_i qdisc q₂ h₂
        exact ⟨parms, time, rate64, testQdisc, q₁, qdisc, q₂, hattrs, h₁, h₂, h⟩
  · exact absurd (Prod.mk.inj h).1 (by decide)

theorem tsfNewChild_keeps {K : Kernel} {child : Option ℤ} {old sch : Qdisc} {q q' : Tsf}
    (h : tsfNewChild K child old q = .ok (sch, q')) :
    ∃ n b d p p', q' = { q with
      qlen := n, backlog := b, drops := d, parentQlen := p, parentBacklog := p' } := by
  by_cases hpos : 0 < q.tlen
  · obtain ⟨-, rfl⟩ := tsfNewChild_pos hpos h
    exact ⟨_, _, _, _, _, rfl⟩
  · rw [tsfNewChild_zero hpos] at h
    obtain ⟨-, rfl⟩ := Prod.mk.inj (Except.ok.inj h)
    exact ⟨_, _, _, _, _, rfl⟩

theorem kfifoInit_keeps {M U : Type} [Kunit M U] (mem : Option (ℕ → Knode U)) (time rate : ℕ)
    (k : Kfifo M U) :
    (kfifoInit mem time rate k).2.rate = k.rate ∧ (kfifoInit mem time rate k).2.mtu = k.mtu := by
  cases mem with
  | none => exact ⟨rfl, rfl⟩
  | some fifo =>
    simp only [kfifoInit]
    split_ifs <;> exact ⟨rfl, rfl⟩

/-- The settings that `tsf_change` makes of its attributes. -/
structure Configured (K : Kernel) (parms time rate64 : ℕ) (q : Tsf) : Prop where
  ttime : q.ttime = time / 1000
  tlen : q.tlen = rate64 * (time / 1000) % 2 ^ 64 / 1000
  buffer : q.buffer = wrapInt64 (rate64 / K.hz : ℕ)
  limit : q.limit = rate64 / K.hz % 2 ^ 32
  rate : q.rate = K.pschedRatecfgPrecompute parms rate64
  kfifoRate : q.kfifo.rate = K.pschedRatecfgPrecompute parms rate64
  mtu : q.kfifo.mtu = min K.devMtu ipMaxMtu

theorem tsfSet_configured (K : Kernel) (parms time rate64 : ℕ) (q : Tsf) :
    Configured K parms time rate64 (tsfSet K parms time rate64 q) := by
  refine ⟨rfl, rfl, ?_, rfl, rfl, rfl, rfl⟩
  simp only [tsfSet]

theorem tsfChange_configured {K : Kernel} {env : TsfEnv} {q q' : Tsf}
    (h : tsfChange K env q = (0, q')) :
    ∃ parms time rate64, env.attrs = .ok ⟨some parms, some time, some rate64⟩ ∧
      Configured K parms time rate64 q' := by
  obtain ⟨parms, time, rate64, testQdisc, q₁, qdisc, q₂, hattrs, h₁, h₂, h₃⟩ := tsfChange_ok h
  obtain ⟨n, b, d, p, p', rfl⟩ := tsfNewChild_keeps h₁
  obtain ⟨m, c, e, r, r', rfl⟩ := tsfNewChild_keeps h₂
  have hring := congrArg Prod.snd h₃
  obtain ⟨hrate, hmtu⟩ := kfifoInit_keeps env.mem (time / 1000 % 2 ^ 32) (rate64 % 2 ^ 32)
    (tsfSet K parms time rate64 q).kfifo
  dsimp only at hring
  rw [← hring]
  refine ⟨parms, time, rate64, hattrs, rfl, rfl, ?_, rfl, rfl, hrate, hmtu⟩
  simp only [tsfMakeRing, tsfSet]

theorem tsfChange_configured_of {K : Kernel} {env : TsfEnv} {q q' : Tsf} {parms time rate64 : ℕ}
    (hattrs : env.attrs = .ok ⟨some parms, some time, some rate64⟩)
    (h : tsfChange K env q = (0, q')) : Configured K parms time rate64 q' := by
  obtain ⟨parms', time', rate', hattrs', c⟩ := tsfChange_configured h
  obtain ⟨rfl, rfl, rfl⟩ : parms = parms' ∧ time = time' ∧ rate64 = rate' := by
    rw [hattrs] at hattrs'
    simpa using hattrs'
  exact c

theorem tsfInit_fresh {K : Kernel} {opt : Option TsfEnv} {q : Tsf} (h : tsfInit K opt = (0, q)) :
    TsfFresh q := by
  cases opt with
  | none => exact absurd (Prod.mk.inj h).1 (by decide)
  | some env =>
    obtain ⟨parms, time, rate64, testQdisc, q₁, qdisc, q₂, -, h₁, h₂, h₃⟩ := tsfChange_ok h
    obtain ⟨htest, d, p, b, rfl⟩ := tsfNewChild_eq rfl h₁
    obtain ⟨hqdisc, d', p', b', rfl⟩ := tsfNewChild_eq rfl h₂
    obtain ⟨k, hk, hslen, rfl⟩ := tsfMakeRing_ok h₃
    exact ⟨hk, hslen, rfl, rfl, hqdisc, htest, rfl, rfl, rfl, rfl⟩

/-- A kernel with the clock `1000, …, 1000, 10000, …`, where every large packet is segmented
into `segs`. -/
def kernelSample (late : ℕ) (segs : List Skb) : Kernel where
  ktime n := if n < late then 1000 else 10000
  ktime_mono := by
    intro a b hab
    dsimp only
    split_ifs <;> omega
  ktime_nonneg := by split_ifs <;> omega
  skbIsGso _ := true
  skbGsoValidateMacLen _ _ := true
  skbGsoSegment _ := segs
  pschedRatecfgPrecompute _ rate64 := ⟨rate64, fun len => len * 1000000000 / rate64⟩
  hz := 100
  devMtu := 1500
  noopEnqueue _ _ := .cn
  noop_refuses _ _ h := NetXmit.noConfusion h
  bfifoEnqueue limit l skb :=
    if (l.map Skb.pktLen).sum + skb.pktLen ≤ limit then .success else .drop
  qdiscTreeFlushBacklog skbs c :=
    let len := (skbs.map Skb.pktLen).sum
    ⟨c.qlen - skbs.length, c.backlog - len, c.drops + skbs.length,
      c.parentQlen - skbs.length, c.parentBacklog - len⟩
  flush_qlen _ _ := rfl
  flush_backlog _ _ := rfl

def pairSample (late len len' : ℕ) : Kernel := kernelSample late [skbSample 1 len, skbSample 2 len']

theorem none_neg : ∀ err ∈ (none : Option ℤ), err < 0 := fun err h =>
  absurd h (Option.not_mem_none err)

def envSample (rate64 : ℕ) : TsfEnv where
  attrs := .ok ⟨some 0, some 8000, some rate64⟩
  child := none
  childJob := none
  mem := some fun _ => ⟨0, 0, 0, 0, none, none, []⟩
  attrs_neg := nofun
  child_neg := none_neg
  childJob_neg := none_neg

def tsfSample (K : Kernel) (rate64 : ℕ) : Tsf := (tsfInit K (some (envSample rate64))).2

theorem tsfSample_init (K : Kernel) (rate64 : ℕ) :
    tsfInit K (some (envSample rate64)) = (0, tsfSample K rate64) := by
  have hzero : (tsfInit K (some (envSample rate64))).1 = 0 := by
    by_cases htlen : 0 < rate64 * 8 % 2 ^ 64 / 1000
    · simp only [tsfInit, tsfChange, envSample, tsfNewChild, tsfSet, Tsf.treeFlushBacklog,
        htlen, if_true]
      rfl
    · simp only [tsfInit, tsfChange, envSample, tsfNewChild, tsfSet, htlen, if_false]
      rfl
  exact Prod.ext hzero rfl

def tsfSampleAfter (K : Kernel) (rate64 : ℕ) (cs : List TsfCall) : Tsf :=
  ((Runs.exec (tsfStep K) (tsfSample K rate64) cs).toOption.map Prod.snd).getD (tsfZero K)

theorem tsfSampleAfter_run {K : Kernel} {rate64 : ℕ} {cs : List TsfCall} {h : TsfHistory}
    (he : (Runs.exec (tsfStep K) (tsfSample K rate64) cs).toOption.map Prod.fst = some h) :
    Runs.Run (tsfStep K) (tsfSample K rate64) h (tsfSampleAfter K rate64 cs) := by
  obtain ⟨⟨h', q⟩, hexec, rfl⟩ := Runs.exists_ok Prod.fst he
  have hlast : tsfSampleAfter K rate64 cs = q := by
    rw [tsfSampleAfter, hexec]
    rfl
  rw [hlast]
  exact Runs.run_of_exec hexec

end MeasurementLimiter
