import Mathlib

namespace MeasurementLimiter

abbrev Byte := Fin 256

/-- The four bytes of an IPv4 address.  `%pI4` prints them in decimal, so comparing
two printed addresses with `strcmp` compares the bytes. -/
structure Ipv4 where
  b0 : Byte
  b1 : Byte
  b2 : Byte
  b3 : Byte
  deriving DecidableEq, Repr

/-- `DEIP`, the address whose incoming flow is limited. -/
def deip : Ipv4 := ⟨45, 32, 31, 234⟩

/-- A `struct sk_buff`: its address as `id`, `skb->len`, the length that `qdisc_pkt_len`
reads from the control block, and the addresses at its network header. -/
structure Skb where
  id : ℕ
  len : ℕ
  pktLen : ℕ
  saddr : Ipv4
  daddr : Ipv4
  deriving DecidableEq, Repr

def skbSample (id len : ℕ) : Skb := ⟨id, len, len, ⟨10, 0, 0, 1⟩, deip⟩

def bypassSample (id : ℕ) (saddr : Ipv4) : Skb := ⟨id, 100, 100, saddr, ⟨10, 0, 0, 2⟩⟩

inductive NetXmit
  | success
  | drop
  | cn
  deriving DecidableEq, Repr

/-- Why a call does not return: it dereferences a NULL packet or a NULL ring node,
or it loops for longer than the run allows. -/
inductive Fault
  | nullSkb
  | nullNode
  | endless
  deriving DecidableEq, Repr

/-- `struct psched_ratecfg` through its two readers: the rate, and `psched_l2t_ns`,
the transmission time in nanoseconds of a length. -/
structure PschedRatecfg where
  rateBytesPs : ℕ
  l2tNs : ℕ → ℕ

/-- The counters of a queueing discipline and of its parents. -/
structure QdiscStats where
  qlen : ℤ
  backlog : ℤ
  drops : ℕ
  parentQlen : ℤ
  parentBacklog : ℤ

/-- The kernel as a run of the scheduler meets it.  `ktime n` is the `n`-th reading
of the clock; `skbGsoSegment` is empty where `skb_gso_segment` gives NULL or an error
pointer; `pschedRatecfgPrecompute` takes the 32-bit and the 64-bit rate.  `noopEnqueue` and
`bfifoEnqueue` are the answers of `noop_qdisc` and of a bfifo with a limit to one packet more;
`noop_qdisc` takes none.  `qdiscTreeFlushBacklog` takes the packets of an inner queue from the
counters of its parent. -/
structure Kernel where
  ktime : ℕ → ℤ
  ktime_mono : Monotone ktime
  ktime_nonneg : 0 ≤ ktime 0
  skbIsGso : Skb → Bool
  skbGsoValidateMacLen : Skb → ℕ → Bool
  skbGsoSegment : Skb → List Skb
  pschedRatecfgPrecompute : ℕ → ℕ → PschedRatecfg
  hz : ℕ
  devMtu : ℕ
  noopEnqueue : List Skb → Skb → NetXmit
  noop_refuses : ∀ l skb, noopEnqueue l skb ≠ .success
  bfifoEnqueue : ℕ → List Skb → Skb → NetXmit
  qdiscTreeFlushBacklog : List Skb → QdiscStats → QdiscStats
  flush_qlen : ∀ skbs c, (qdiscTreeFlushBacklog skbs c).qlen = c.qlen - skbs.length
  flush_backlog : ∀ skbs c,
    (qdiscTreeFlushBacklog skbs c).backlog = c.backlog - (skbs.map Skb.pktLen).sum

inductive QdiscOps
  | noop
  | bfifo
  deriving DecidableEq, Repr

/-- A child queue: its operations, the packets it holds, oldest first, and its answer to
one more. -/
structure Qdisc where
  ops : QdiscOps
  skbs : List Skb
  verdict : List Skb → Skb → NetXmit

def QdiscOps.peek : QdiscOps → Qdisc → Option Skb
  | .noop, _ => none
  | .bfifo, sch => sch.skbs.head?

/-- A bfifo of `limit` bytes, as `fifo_create_dflt` makes it. -/
def bfifo (K : Kernel) (limit : ℕ) : Qdisc where
  ops := .bfifo
  skbs := []
  verdict := K.bfifoEnqueue limit

def noopQdisc (K : Kernel) : Qdisc where
  ops := .noop
  skbs := []
  verdict := K.noopEnqueue

/-- A bfifo takes no packet beyond its limit. -/
def Kernel.BfifoLimited (K : Kernel) : Prop :=
  ∀ limit l skb, K.bfifoEnqueue limit l skb = .success →
    (l.map Skb.pktLen).sum + skb.pktLen ≤ limit

/-- `qdisc_enqueue` on a child: a packet that is not stored goes to `to_free`. -/
def qdiscEnqueue (skb : Skb) (sch : Qdisc) (toFree : List Skb) : NetXmit × Qdisc × List Skb :=
  match sch.verdict sch.skbs skb with
  | .success => (.success, { sch with skbs := sch.skbs ++ [skb] }, toFree)
  | ret => (ret, sch, skb :: toFree)

/-- A signed value of 64 bits read as unsigned. -/
def asU64 (x : ℤ) : ℤ := if x < 0 then x + 2 ^ 64 else x

def minU64 (a b : ℤ) : ℤ := if asU64 a < asU64 b then a else b

theorem minU64_of_nonneg {a b : ℤ} (ha : 0 ≤ a) (hb : 0 ≤ b) : minU64 a b = min a b := by
  unfold minU64 asU64
  rw [if_neg (not_lt.mpr ha), if_neg (not_lt.mpr hb)]
  split_ifs <;> omega

/-- Integers of 32 bits: what an `int` keeps of a value. -/
def wrapInt32 (x : ℤ) : ℤ := x.bmod (2 ^ 32)

theorem wrapInt32_of_mem {x : ℤ} (h : -2 ^ 31 ≤ x) (h' : x < 2 ^ 31) : wrapInt32 x = x := by
  unfold wrapInt32
  rw [Int.bmod_def]
  split_ifs <;> omega

def wrapInt64 (x : ℤ) : ℤ := x.bmod (2 ^ 64)

theorem wrapInt64_nonneg_iff {n : ℕ} (h : n < 2 ^ 64) : 0 ≤ wrapInt64 n ↔ n < 2 ^ 63 := by
  unfold wrapInt64
  rw [Int.bmod_def]
  split_ifs <;> omega

theorem wrapInt64_of_lt {n : ℕ} (h : n < 2 ^ 63) : wrapInt64 n = n := by
  unfold wrapInt64
  rw [Int.bmod_def]
  split_ifs <;> omega

/-- A signed value widened to 64 unsigned bits. -/
def toU64 (x : ℤ) : ℕ := (x % 2 ^ 64).toNat

theorem toU64_of_mem {x : ℤ} (h : 0 ≤ x) (h' : x < 2 ^ 64) : toU64 x = x.toNat := by
  rw [toU64, Int.emod_eq_of_lt h h']

/-- Subtraction of unsigned integers of `w` bits, which wraps below zero. -/
def usub (w a b : ℕ) : ℕ := if b ≤ a then a - b else 2 ^ w + a - b

theorem usub_of_le {w a b : ℕ} (h : b ≤ a) : usub w a b = a - b := if_pos h

end MeasurementLimiter
