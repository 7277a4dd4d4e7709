import MeasurementLimiter.Kunit
import MeasurementLimiter.Fifo

namespace MeasurementLimiter

/-- `UNIT_TIME`, the nanoseconds of one node. -/
def unitTime : ℕ := 1000000

theorem unitTime_pos : 0 < unitTime := by
  unfold unitTime
  norm_num

structure Knode (U : Type) where
  pkt : ℕ
  leftTime : ℕ
  sleepTime : ℕ
  slen : ℕ
  prev : Option ℕ
  next : Option ℕ
  kunit : U

/-- `struct kfifo_queue_data`, with the memory of the packets' links. `pbase` says
whether the array of nodes is allocated. -/
@[ext] structure Kfifo (M U : Type) where
  links : M
  pbase : Bool
  node : ℕ → Knode U
  totalTime : ℕ
  totalLen : ℕ
  pread : ℕ
  pwrite : ℕ
  slen : ℕ
  mtu : ℕ
  rate : PschedRatecfg

variable {M U : Type}

def Kfifo.modify (k : Kfifo M U) (i : ℕ) (f : Knode U → Knode U) : Kfifo M U :=
  { k with node := Function.update k.node i (f (k.node i)) }

section Init

variable [Kunit M U]

def kfifoFinishNode (read : Knode U) : Knode U :=
  { read with leftTime := unitTime, pkt := 0, slen := 0, sleepTime := 0, kunit := Kunit.init }

def kfifoInitNodes (number : ℕ) (fifo : ℕ → Knode U) : ℕ → Knode U :=
  (List.range number).foldl (fun fifo i => Function.update fifo i
    { fifo i with
      pkt := 0, slen := 0, sleepTime := 0, leftTime := unitTime, kunit := Kunit.init }) fifo

/-- The second loop of `kfifo_init`, and the four links it leaves out. -/
def kfifoInitLinks (number : ℕ) (fifo : ℕ → Knode U) : ℕ → Knode U :=
  let fifo := (List.range' 1 (number - 2)).foldl (fun fifo i => Function.update fifo i
    { fifo i with prev := some (i - 1), next := some (i + 1) }) fifo
  let fifo := Function.update fifo 0
    { fifo 0 with next := some 1, prev := some (number - 1) }
  Function.update fifo (number - 1)
    { fifo (number - 1) with next := some 0, prev := some (number - 2) }

/-- `kfifo_init`.  `mem` is what `kmalloc` returns: the array with whatever the memory held, or
none.  It stays where there are fewer than two nodes.  The arguments are 32 bits wide, and so is
their product. -/
def kfifoInit (mem : Option (ℕ → Knode U)) (time rate : ℕ) (k : Kfifo M U) : ℤ × Kfifo M U :=
  match mem with
  | none => (-1, k)
  | some fifo =>
    let k := { k with
      pbase := true, node := fifo, pread := 0, pwrite := 0
      totalLen := time * rate % 2 ^ 32 / 1000, totalTime := time }
    if time < 2 then (-1, k)
    else (0, { k with node := kfifoInitLinks time (kfifoInitNodes time fifo) })

end Init

/-- The loop of `kfifo_wr_conflict`, from the node at `temp`. -/
def kfifoWrConflictLoop (k : Kfifo M U) : Option ℕ → ℕ → Except Fault Bool
  | _, 0 => .ok false
  | none, _ + 1 => .error .nullNode
  | some temp, step + 1 =>
    let temp := (k.node temp).next
    if temp = some k.pread then .ok true else kfifoWrConflictLoop k temp step

/-- `kfifo_wr_conflict`: whether it returns -1.  A full ring and a reader that caught up look the
same to it. -/
def kfifoWrConflict (k : Kfifo M U) (step : ℤ) : Except Fault Bool :=
  if 0 < (k.node k.pwrite).pkt ∧ k.pwrite = k.pread then .ok true
  else kfifoWrConflictLoop k (some k.pwrite) step.toNat

/-- The loop of `kfifo_write_forward`: false where it returns -1, with the write
pointer where it stopped. -/
def kfifoWriteLoop : ℕ → Kfifo M U → Bool × Kfifo M U
  | 0, k => (true, k)
  | step + 1, k =>
    match (k.node k.pwrite).next with
    | none => (false, k)
    | some t => if t = k.pread then (false, k) else kfifoWriteLoop step { k with pwrite := t }

/-- `kfifo_write_forward`.  Only the node where the pointer stops pays. -/
def kfifoWriteForward (k : Kfifo M U) (step : ℤ) (costTime : ℕ) : Bool × Kfifo M U :=
  match kfifoWriteLoop step.toNat k with
  | (false, k) => (false, k)
  | (true, k) =>
    (true, k.modify k.pwrite fun n => { n with leftTime := usub 64 n.leftTime costTime })

def kfifoReadLoop : ℕ → Kfifo M U → Except Fault (ℤ × Kfifo M U)
  | 0, _ => .error .endless
  | fuel + 1, k =>
    if (k.node k.pread).pkt = 0 then
      match (k.node k.pread).next with
      | none => .error .nullNode
      | some t =>
        let k := { k with pread := t }
        if t = k.pwrite then .ok (if (k.node t).pkt = 0 then 0 else 1, k)
        else kfifoReadLoop fuel k
    else .ok (1, k)

/-- `kfifo_read_forward`.  A walk that has not met the write pointer after a node more
than the ring has never meets it. -/
def kfifoReadForward (k : Kfifo M U) : Except Fault (ℤ × Kfifo M U) :=
  if k.pread = k.pwrite then .ok (0, k) else kfifoReadLoop (k.totalTime + 1) k

def skbStep (skbTime : ℕ) : ℤ := wrapInt32 (skbTime / unitTime : ℕ)

/-- `int cost_time = skb_time-step*UNIT_TIME`. -/
def skbCostTime (skbTime : ℕ) : ℤ :=
  wrapInt32 (skbTime - wrapInt32 (skbStep skbTime * unitTime))

variable [Kunit M U]

/-- What both branches of `kfifo_enqueue` do at the write node. -/
def kfifoPut (k : Kfifo M U) (skb : Skb) (skbTime : ℕ) : Kfifo M U :=
  let (links, kunit) := Kunit.enqueueTail skb k.links (k.node k.pwrite).kunit
  let k := k.modify k.pwrite fun n => { n with
    sleepTime := n.sleepTime + skbTime, pkt := n.pkt + 1
    slen := n.slen + skb.pktLen, kunit := kunit }
  { k with links := links, slen := k.slen + skb.pktLen }

/-- The branch of `kfifo_enqueue` for a packet that the write node cannot include, with
`step` for its `step+1`. -/
def kfifoJump (k : Kfifo M U) (skb : Skb) (skbTime : ℕ) (step : ℤ) (costTime : ℕ) :
    Except Fault (NetXmit × Kfifo M U) :=
  match kfifoWrConflict k step with
  | .error e => .error e
  | .ok true => .ok (.drop, k)
  | .ok false =>
    match kfifoWriteForward k step costTime with
    | (false, k) => .ok (.drop, k)
    | (true, k) => .ok (.success, kfifoPut k skb skbTime)

/-- The branch of `kfifo_enqueue` for a packet that the write node can include. -/
def kfifoStay (k : Kfifo M U) (skb : Skb) (skbTime : ℕ) : Except Fault (NetXmit × Kfifo M U) :=
  match kfifoWrConflict k 0 with
  | .error e => .error e
  | .ok true => .ok (.drop, k)
  | .ok false =>
    let k := k.modify k.pwrite fun n => { n with leftTime := usub 64 n.leftTime skbTime }
    .ok (.success, kfifoPut k skb skbTime)

/-- `kfifo_enqueue`.  It never touches `to_free`. -/
def kfifoEnqueue (skb : Option Skb) (k : Kfifo M U) : Except Fault (NetXmit × Kfifo M U) :=
  match skb with
  | none => .error .nullSkb
  | some skb =>
    if k.totalLen < skb.pktLen + k.slen then .ok (.drop, k)
    else
      let skbTime := k.rate.l2tNs skb.pktLen
      if (k.node k.pwrite).leftTime < skbTime then
        kfifoJump k skb skbTime (wrapInt32 (skbStep skbTime + 1)) (toU64 (skbCostTime skbTime))
      else kfifoStay k skb skbTime

/-- The end of `kfifo_dequeue`: the first packet of the read node, if there is one. -/
def kfifoTake (k : Kfifo M U) : Option Skb × Kfifo M U :=
  match Kunit.dequeueHead k.links (k.node k.pread).kunit with
  | (none, kunit) => (none, k.modify k.pread fun n => { n with kunit := kunit })
  | (some skb, kunit) =>
    let k := k.modify k.pread fun n => { n with
      pkt := usub 32 n.pkt 1, slen := usub 32 n.slen skb.pktLen, kunit := kunit }
    (some skb, { k with slen := usub 64 k.slen skb.pktLen })

/-- `kfifo_dequeue`.  A drained node keeps the reader until its time is slept. -/
def kfifoDequeue (k : Kfifo M U) : Except Fault (Option Skb × Kfifo M U) :=
  if (k.node k.pread).pkt = 0 then
    if 0 < (k.node k.pread).sleepTime then .ok (none, k)
    else
      match kfifoReadForward k with
      | .error e => .error e
      | .ok (r, k) => if r ≠ 1 then .ok (none, k) else .ok (kfifoTake k)
  else .ok (kfifoTake k)

/-- The read node is drained and has time to sleep. -/
def Kfifo.Owes (k : Kfifo M U) : Prop :=
  (k.node k.pread).pkt = 0 ∧ 0 < (k.node k.pread).sleepTime

instance (k : Kfifo M U) : Decidable k.Owes := by unfold Kfifo.Owes; infer_instance

/-- `kfifo_finish_node` on the read node, as `tsf_dequeue` calls it: the sleep time it
clears, if the read node is drained and owes one. -/
def kfifoFinish (k : Kfifo M U) : Option ℕ × Kfifo M U :=
  if k.Owes then (some (k.node k.pread).sleepTime, k.modify k.pread kfifoFinishNode)
  else (none, k)

theorem kfifoFinish_owes {k : Kfifo M U} (h : k.Owes) : kfifoFinish k =
    (some (k.node k.pread).sleepTime, k.modify k.pread kfifoFinishNode) :=
  if_pos h

theorem kfifoFinish_free {k : Kfifo M U} (h : ¬k.Owes) : kfifoFinish k = (none, k) := if_neg h

inductive RingCall
  | enqueue (skb : Skb)
  | dequeue
  | finish
  deriving DecidableEq

inductive RingAnswer
  | verdict (ret : NetXmit)
  | packet (skb : Option Skb)
  | slept (sleepTime : Option ℕ)
  deriving DecidableEq

def ringStep (k : Kfifo M U) : RingCall → Except Fault (RingAnswer × Kfifo M U)
  | .enqueue skb =>
    match kfifoEnqueue (some skb) k with
    | .error e => .error e
    | .ok (ret, k) => .ok (.verdict ret, k)
  | .dequeue =>
    match kfifoDequeue k with
    | .error e => .error e
    | .ok (skb, k) => .ok (.packet skb, k)
  | .finish => let (sleepTime, k) := kfifoFinish k; .ok (.slept sleepTime, k)

theorem ringStep_enqueue {k : Kfifo M U} {skb : Skb} {r : NetXmit × Kfifo M U}
    (h : kfifoEnqueue (some skb) k = .ok r) :
    ringStep k (.enqueue skb) = .ok (.verdict r.1, r.2) := by
  rw [ringStep, h]

theorem ringStep_dequeue {k : Kfifo M U} {r : Option Skb × Kfifo M U} (h : kfifoDequeue k = .ok r) :
    ringStep k .dequeue = .ok (.packet r.1, r.2) := by
  rw [ringStep, h]

theorem ringStep_finish (k : Kfifo M U) :
    ringStep k .finish = .ok (.slept (kfifoFinish k).1, (kfifoFinish k).2) := rfl

/-- Calls on the ring with their results. -/
abbrev RingHistory := List (RingCall × RingAnswer)

/-- What a call does to the queue of packets. -/
def ringAct : RingCall × RingAnswer → Fifo.Act Skb
  | (.enqueue skb, .verdict .success) => .push skb
  | (.dequeue, .packet (some skb)) => .pop skb
  | _ => .idle

/-- The packets for which `kfifo_enqueue` returned `NET_XMIT_SUCCESS`. -/
def acceptedBy (h : RingHistory) : List Skb := Fifo.pushed (h.map ringAct)

/-- The packets that `kfifo_dequeue` returned. -/
def returnedBy (h : RingHistory) : List Skb := Fifo.popped (h.map ringAct)

/-- The packets that the calls of a run offer. -/
def offeredBy (cs : List RingCall) : List Skb :=
  cs.filterMap fun c => match c with
    | .enqueue skb => some skb
    | _ => none

end MeasurementLimiter
