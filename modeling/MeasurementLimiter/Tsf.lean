import MeasurementLimiter.RingInvariant

namespace MeasurementLimiter

open Runs

/-- What a call did, with the time of it.  The source keeps no such record. -/
inductive Event
  | offered (skb : Skb)
  | stored (now : ℤ) (skb : Skb)
  | finished (now : ℤ) (sleepTime : ℕ)
  | sent (now : ℤ) (skb : Skb)
  | bypassed (now : ℤ) (skb : Skb)
  deriving DecidableEq

/-- `struct tsf_sched_data`, with the counters of its `sch` and of the parents of that,
the tree lock, the list `to_free`, the number of clock readings and the trace. -/
structure Tsf where
  ttime : ℕ
  tlen : ℕ
  tokens : ℤ
  tC : ℤ
  kfifo : Ring
  rate : PschedRatecfg
  buffer : ℤ
  limit : ℕ
  qdisc : Qdisc
  testQdisc : Qdisc
  watchdog : Option ℤ
  qlen : ℤ
  backlog : ℤ
  drops : ℕ
  overlimits : ℕ
  parentQlen : ℤ
  parentBacklog : ℤ
  treeLocked : Bool
  toFree : List Skb
  readings : ℕ
  trace : List Event

def Tsf.now (K : Kernel) (q : Tsf) : ℤ := K.ktime q.readings

/-- The state after a reading of the clock. -/
def Tsf.tick (q : Tsf) : Tsf := { q with readings := q.readings + 1 }

/-- `qdisc_qstats_drop`, unless the verdict is `NET_XMIT_SUCCESS`. -/
def Tsf.countDrop (q : Tsf) (ret : NetXmit) : Tsf :=
  { q with drops := if ret = .success then q.drops else q.drops + 1 }

/-- The state after `kfifo_enqueue` answered `ret` and left the ring `k`. -/
def Tsf.afterRing (q : Tsf) (now : ℤ) (skb : Skb) (ret : NetXmit) (k : Ring) : Tsf :=
  { q with
    kfifo := k
    trace := if ret = .success then q.trace ++ [.stored now skb] else q.trace }

/-- `kfifo_enqueue` on the ring of the scheduler. -/
def tsfRing (now : ℤ) (skb : Skb) (q : Tsf) : Except Fault (NetXmit × Tsf) :=
  match kfifoEnqueue (some skb) q.kfifo with
  | .error e => .error e
  | .ok (ret, k) => .ok (ret, q.afterRing now skb ret k)

def tsfPark (skb : Skb) (q : Tsf) : NetXmit × Tsf :=
  let (ret, qdisc, toFree) := qdiscEnqueue skb q.qdisc q.toFree
  (ret, { q with qdisc := qdisc, toFree := toFree })

/-- The balance is capped by the depth of the bucket. -/
def capTokens (buffer toks : ℤ) : ℤ := if buffer < toks then buffer else toks

/-- A segment gets its length as its `pkt_len`. -/
def markSegment (seg : Skb) : Skb := { seg with pktLen := seg.len }

/-- The tokens that `tsf_segment` has left after a segment at time `now`. -/
def segmentToks (q : Tsf) (now : ℤ) (seg : Skb) : ℤ :=
  capTokens q.buffer (min (now - q.tC) q.buffer + q.tokens) - q.rate.l2tNs seg.len

/-- The body of the loop of `tsf_segment`, which charges a segment before it looks at the verdict. -/
def tsfSegmentOne (K : Kernel) (seg : Skb) (q : Tsf) : Except Fault (NetXmit × Tsf) :=
  let now := q.now K
  let toks := segmentToks q now seg
  if 0 ≤ toks then
    match tsfRing now (markSegment seg) q.tick with
    | .error e => .error e
    | .ok (ret, q) => .ok (ret, { q with tC := now, tokens := toks }.countDrop ret)
  else
    let (ret, q) := tsfPark (markSegment seg) q.tick
    .ok (ret, q.countDrop ret)

/-- The loop of `tsf_segment`, with the number `nb` of stored segments. -/
def tsfSegmentLoop (K : Kernel) : List Skb → ℕ → Tsf → Except Fault (ℕ × Tsf)
  | [], nb, q => .ok (nb, q)
  | seg :: segs, nb, q =>
    match tsfSegmentOne K seg q with
    | .error e => .error e
    | .ok (ret, q) => tsfSegmentLoop K segs (if ret = .success then nb + 1 else nb) q

/-- `qdisc_tree_reduce_backlog`, which changes the counters of the parents. -/
def Tsf.treeReduceBacklog (q : Tsf) (n len : ℤ) : Tsf :=
  { q with parentQlen := q.parentQlen - n, parentBacklog := q.parentBacklog - len }

/-- `tsf_segment`.  It tells the parents of the stored segments, with the bytes of all. -/
def tsfSegment (K : Kernel) (skb : Skb) (q : Tsf) : Except Fault (NetXmit × Tsf) :=
  match K.skbGsoSegment skb with
  | [] => .ok (.drop, { q with drops := q.drops + 1, toFree := skb :: q.toFree })
  | segs =>
    let q := { q with trace := q.trace ++ segs.map fun seg => Event.offered (markSegment seg) }
    match tsfSegmentLoop K segs 0 q with
    | .error e => .error e
    | .ok (nb, q) =>
      let q := { q with qlen := q.qlen + nb }
      let q := if 1 < nb
        then q.treeReduceBacklog (1 - nb) (skb.pktLen - (segs.map Skb.len).sum) else q
      .ok (if 0 < nb then .success else .drop, q)

/-- How the loop over the inner queue ends: the call returns from it, or goes on. -/
inductive Promoted
  | returned (ret : NetXmit) (q : Tsf)
  | finished (toks toks2 : ℤ) (preSkb : Option Skb) (q : Tsf)

/-- The loop of `tsf_enqueue` over the packets `l` of the inner queue.  A packet that the ring
refuses has left the inner queue, and `sch` still counts it. -/
def tsfPromote (now : ℤ) : List Skb → ℤ → ℤ → Option Skb → Tsf → Except Fault Promoted
  | l, toks, toks2, preSkb, q =>
    if 0 ≤ toks2 then
      match l with
      -- `kfifo_enqueue` reads the length of NULL
      | [] => .error .nullSkb
      | skb :: l =>
        match tsfRing now skb { q with qdisc := { q.qdisc with skbs := l } } with
        | .error e => .error e
        | .ok (.success, q) =>
          let q := { q with
            tC := now, tokens := toks2, backlog := q.backlog - skb.pktLen, qlen := q.qlen - 1 }
          match l with
          | [] => .ok (.finished toks2 toks2 none q)
          | next :: l =>
            tsfPromote now (next :: l) toks2 (toks2 - q.rate.l2tNs next.pktLen) (some next) q
        | .ok (ret, q) => .ok (.returned ret (q.countDrop ret))
    else .ok (.finished toks toks2 preSkb q)

/-- The balance that `tsf_enqueue` computes, with its unsigned minimum. -/
def enqueueToks (q : Tsf) (now : ℤ) : ℤ :=
  capTokens q.buffer (minU64 (now - q.tC) q.buffer + q.tokens)

/-- The balance after the packet at the head of the inner queue, if there is one. -/
def peekToks (q : Tsf) (toks : ℤ) : ℤ :=
  match q.qdisc.skbs.head? with
  | none => toks
  | some preSkb => toks - q.rate.l2tNs preSkb.pktLen

/-- The end of `tsf_enqueue`, for the new packet.  It is counted as waiting also where the inner
queue refuses it. -/
def tsfNew (now : ℤ) (skb : Skb) (toks toks2 : ℤ) (preSkb : Option Skb) (q : Tsf) :
    Except Fault (NetXmit × Tsf) :=
  let toks := toks - q.rate.l2tNs skb.pktLen
  if 0 ≤ toks then
    match tsfRing now skb q with
    | .error e => .error e
    | .ok (ret, q) => .ok (ret, { q with tC := now, tokens := toks }.countDrop ret)
  else
    let (_, q) := tsfPark skb q
    .ok (.success, { q with
      backlog := q.backlog + skb.pktLen, qlen := q.qlen + 1, overlimits := q.overlimits + 1
      watchdog := some (now - if preSkb.isSome then toks2 else toks) })

/-- `tsf_enqueue` for a packet to `DEIP` that is not segmented. -/
def tsfPlain (K : Kernel) (skb : Skb) (q : Tsf) : Except Fault (NetXmit × Tsf) :=
  let now := q.now K
  let toks := enqueueToks q now
  let q := { q.tick with trace := q.trace ++ [.offered skb] }
  match tsfPromote now q.qdisc.skbs toks (peekToks q toks) q.qdisc.skbs.head? q with
  | .error e => .error e
  | .ok (.returned ret q) => .ok (ret, q)
  | .ok (.finished toks toks2 preSkb q) => tsfNew now skb toks toks2 preSkb q

/-- `tsf_enqueue` for a packet that goes elsewhere. -/
def tsfBypass (skb : Skb) (q : Tsf) : NetXmit × Tsf :=
  let (ret, testQdisc, toFree) := qdiscEnqueue skb q.testQdisc q.toFree
  let q := { q with
    testQdisc := testQdisc, toFree := toFree, trace := q.trace ++ [Event.offered skb] }
  (ret, q.countDrop ret)

def Segments (K : Kernel) (skb : Skb) (q : Tsf) : Prop :=
  q.kfifo.mtu < skb.pktLen ∧ K.skbIsGso skb ∧ K.skbGsoValidateMacLen skb q.kfifo.mtu

instance (K : Kernel) (skb : Skb) (q : Tsf) : Decidable (Segments K skb q) := by
  unfold Segments
  infer_instance

def tsfEnqueue (K : Kernel) (skb : Skb) (q : Tsf) : Except Fault (NetXmit × Tsf) :=
  if skb.daddr ≠ deip then .ok (tsfBypass skb q)
  else if Segments K skb q then tsfSegment K skb q
  else tsfPlain K skb q

/-- The busy wait of `tsf_delay`, for at most `spins` readings of the clock. -/
def tsfSpin (K : Kernel) (now sleepTime : ℤ) : ℕ → Tsf → Except Fault Tsf
  | 0, _ => .error .endless
  | spins + 1, q =>
    if sleepTime ≤ q.now K - now then .ok q.tick else tsfSpin K now sleepTime spins q.tick

/-- `tsf_delay`, which leaves a long sleep to the watchdog. -/
def tsfDelay (K : Kernel) (spins : ℕ) (sleepTime : ℤ) (q : Tsf) : Except Fault Tsf :=
  let now := q.now K
  if 1000000 < sleepTime then .ok { q.tick with watchdog := some (now + sleepTime) }
  else tsfSpin K now sleepTime spins q.tick

/-- The part of `tsf_dequeue` for the ring, in a call at time `now`. -/
def tsfDequeueRing (K : Kernel) (spins : ℕ) (now : ℤ) (q : Tsf) :
    Except Fault (Option Skb × Tsf) :=
  match kfifoDequeue q.kfifo with
  | .error e => .error e
  | .ok (some skb, kfifo) =>
    .ok (some skb, { q with kfifo := kfifo, trace := q.trace ++ [.sent now skb] })
  | .ok (none, kfifo) =>
    match kfifoFinish kfifo with
    | (none, kfifo) => .ok (none, { q with kfifo := kfifo })
    | (some sleepTime, kfifo) =>
      match tsfDelay K spins sleepTime
          { q with kfifo := kfifo, trace := q.trace ++ [.finished now sleepTime] } with
      | .error e => .error e
      | .ok q => .ok (none, q)

/-- The packet at the head of the bypass queue, if it goes first: the operations of the
inner queue look for it. -/
def bypassHead (q : Tsf) : Option Skb :=
  (q.qdisc.ops.peek q.testQdisc).filter fun skb => skb.saddr ≠ deip

/-- `tsf_dequeue`.  Its call takes the next reading as its time, although the source does
not read the clock there. -/
def tsfDequeue (K : Kernel) (spins : ℕ) (q : Tsf) : Except Fault (Option Skb × Tsf) :=
  let now := q.now K
  match bypassHead q with
  | some skb =>
    .ok (some skb, { q.tick with
      testQdisc := { q.testQdisc with skbs := q.testQdisc.skbs.tail }
      trace := q.trace ++ [.bypassed now skb] })
  | none => tsfDequeueRing K spins now q.tick

/-- The calls of a run; the busy wait of a dequeue is given a number of readings. -/
inductive TsfCall
  | enqueue (skb : Skb)
  | segment (skb : Skb)
  | dequeue (spins : ℕ)
  deriving DecidableEq

inductive TsfAnswer
  | verdict (ret : NetXmit)
  | packet (skb : Option Skb)
  deriving DecidableEq

def tsfStep (K : Kernel) (q : Tsf) : TsfCall → Except Fault (TsfAnswer × Tsf)
  | .enqueue skb =>
    match tsfEnqueue K skb q with
    | .error e => .error e
    | .ok (ret, q) => .ok (.verdict ret, q)
  | .segment skb =>
    match tsfSegment K skb q with
    | .error e => .error e
    | .ok (ret, q) => .ok (.verdict ret, q)
  | .dequeue spins =>
    match tsfDequeue K spins q with
    | .error e => .error e
    | .ok (skb, q) => .ok (.packet skb, q)

abbrev TsfHistory := List (TsfCall × TsfAnswer)

end MeasurementLimiter
