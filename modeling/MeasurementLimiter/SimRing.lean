import MeasurementLimiter.Cyclic
import MeasurementLimiter.Runs

namespace MeasurementLimiter.RingSim

open Cyclic

/-- `Ring::block`, the number of blocks. -/
def block : ℕ := 1000

/-- `Ring::qlen`, the number of packets of a block. -/
def qlen : ℕ := 80

theorem block_pos : 0 < block := by
  unfold block
  norm_num

structure Packet (τ : Type) where
  arrivalTime : τ
  len : ℤ
  deriving DecidableEq

/-- The results of the arithmetic in `double`, at tick `n`: `expired t n` for
`arrival_time+latency<tot_round*0.1`, `arrived t n` for `tot_round*0.1>=arrival_time`,
`tooLong len` for `len/rate/1024>1`, and `intervalBlock b` for the blocks that `b` bytes
take, cut to an `int`. -/
structure RingNum (τ : Type) [LE τ] where
  expired : τ → ℕ → Bool
  arrived : τ → ℕ → Bool
  tooLong : ℤ → Bool
  intervalBlock : ℤ → ℤ
  arrived_of_expired : ∀ {t n}, expired t n → arrived t n
  arrived_mono : ∀ {t t' n n'}, t ≤ t' → n ≤ n' → arrived t' n → arrived t n'
  intervalBlock_mono : Monotone intervalBlock

def cutInt (x : ℚ) : ℤ := if 0 ≤ x then ⌊x⌋ else ⌈x⌉

theorem cutInt_mono : Monotone cutInt := by
  intro x y hxy
  unfold cutInt
  split_ifs with hx hy hy
  · exact Int.floor_le_floor hxy
  · exact absurd (hx.trans hxy) hy
  · exact (Int.ceil_nonpos.mpr (le_of_not_ge hx)).trans (Int.floor_nonneg.mpr hy)
  · exact Int.ceil_le_ceil hxy

/-- The same in exact arithmetic, for a ring of `rate` kilobytes for each second. -/
def RingNum.exact (rate : ℚ) (hrate : 0 < rate) : RingNum ℚ where
  expired t n := t + 40 < n / 10
  arrived t n := t ≤ n / 10
  tooLong len := 1 < len / rate / 1024
  intervalBlock b := cutInt (b / (rate * 1024) * block)
  arrived_of_expired := by
    intro t n h
    simp only [decide_eq_true_eq] at h ⊢
    linarith
  arrived_mono := by
    intro t t' n n' ht hn h
    simp only [decide_eq_true_eq] at h ⊢
    have : (n : ℚ) ≤ n' := by exact_mod_cast hn
    linarith
  intervalBlock_mono := by
    intro a b hab
    have : (a : ℚ) ≤ b := by exact_mod_cast hab
    exact cutInt_mono (by gcongr)

/-- `struct Ring`, less the fields that only its unused parts read. -/
structure Ring (τ : Type) where
  ringQueue : ℕ → ℕ → Packet τ
  nowQlen : ℕ → ℕ
  nowBytes : ℕ → ℤ
  nowPostion : ℕ
  prePointer : ℕ
  totBytes : ℤ

/-- What one `printf` of `de_ring` prints: the length of `packet`, and a time that depends on
the tick and on the place of the packet among those of its block. -/
structure Line (τ : Type) where
  totRound : ℕ
  nowQlen : ℕ
  place : ℕ
  packet : Packet τ

/-- The globals of the program, and a record of what it did: the lines that each call of
`de_ring` printed, the packets that `in_ring` placed, and those that were thrown away. -/
structure Sim (τ : Type) where
  input : List (Packet τ)
  inque : List (Packet τ)
  totRound : ℕ
  ring : Ring τ
  printed : List (List (Line τ))
  placed : List (Packet τ)
  discarded : List (Packet τ)

/-- A packet is written past the `qlen` places of its block. -/
inductive Overflow
  | qlen
  deriving DecidableEq

variable {τ : Type}

/-- The ring at the start, with whatever the memory of its blocks holds. -/
def Ring.new (mem : ℕ → ℕ → Packet τ) : Ring τ := ⟨mem, fun _ => 0, fun _ => 0, 0, 0, 0⟩

/-- The program at the start, with its whole input read. -/
def Sim.new (mem : ℕ → ℕ → Packet τ) (input : List (Packet τ)) : Sim τ :=
  ⟨input, [], 0, .new mem, [], [], []⟩

def calInterval (pre after : ℕ) : ℕ := if pre ≤ after then after - pre else after + block - pre

/-- A packet is written at place `j` of block `i`, as its last one. -/
def Ring.write (r : Ring τ) (i j : ℕ) (p : Packet τ) (bytes : ℤ) : Except Overflow (Ring τ) :=
  if j < qlen then
    .ok { r with
      ringQueue := Function.update r.ringQueue i (Function.update (r.ringQueue i) j p)
      nowQlen := Function.update r.nowQlen i (j + 1)
      nowBytes := Function.update r.nowBytes i bytes }
  else .error .qlen

/-- The two branches of `in_ring` that place a packet: in the last block in use, or in a later one,
which is overwritten from its first place on. -/
def Ring.place (r : Ring τ) (p : Packet τ) (intervalBlock : ℤ) : Except Overflow (Ring τ) :=
  let interval := calInterval r.nowPostion r.prePointer
  if intervalBlock ≤ interval then
    r.write r.prePointer (r.nowQlen r.prePointer) p (r.nowBytes r.prePointer + p.len)
  else
    let prePointer := ((intervalBlock - interval + r.prePointer) % block).toNat
    { r with prePointer := prePointer }.write prePointer 0 p p.len

section Arithmetic

variable [LE τ]

/-- The loop of `Ring::in_ring` over the packets of `inque`.  Behind a packet that is too long they
wait for another call. -/
def inRingLoop (A : RingNum τ) : List (Packet τ) → Sim τ → Except Overflow (Sim τ)
  | [], s => .ok { s with inque := [] }
  | p :: inque, s =>
    if A.expired p.arrivalTime s.totRound then
      inRingLoop A inque { s with discarded := s.discarded ++ [p] }
    else if A.tooLong p.len then
      .ok { s with inque := inque, discarded := s.discarded ++ [p] }
    else
      let intervalBlock := A.intervalBlock (p.len + s.ring.totBytes)
      if block < intervalBlock then .ok { s with inque := p :: inque }
      else
        match s.ring.place p intervalBlock with
        | .error e => .error e
        | .ok ring => inRingLoop A inque { s with
            ring := { ring with totBytes := ring.totBytes + p.len }
            placed := s.placed ++ [p] }

def inRing (A : RingNum τ) (s : Sim τ) : Except Overflow (Sim τ) := inRingLoop A s.inque s

end Arithmetic

/-- `Ring::de_ring`: the lines it prints, and the ring. -/
def deRing (totRound : ℕ) (r : Ring τ) : List (Line τ) × Ring τ :=
  let n := r.nowQlen r.nowPostion
  if n ≠ 0 then
    let lines := (List.range n).map fun i => ⟨totRound, n, i, r.ringQueue r.nowPostion i⟩
    (lines, { r with
      totBytes := r.totBytes - (lines.map fun line => line.packet.len).sum
      nowQlen := Function.update r.nowQlen r.nowPostion 0
      nowBytes := Function.update r.nowBytes r.nowPostion 0 })
  else ([], r)

/-- `Ring::status_update`, which moves the pointer of an empty ring along. -/
def statusUpdate (r : Ring τ) : Ring τ :=
  let interval := calInterval r.nowPostion r.prePointer
  { r with
    nowQlen := Function.update r.nowQlen r.nowPostion 0
    prePointer := if interval = 0 then (r.prePointer + 1) % block else r.prePointer
    nowPostion := (r.nowPostion + 1) % block }

/-- A call of `de_ring` is recorded with its lines. -/
def Sim.deRing (s : Sim τ) : Sim τ :=
  { s with
    ring := (RingSim.deRing s.totRound s.ring).2
    printed := s.printed ++ [(RingSim.deRing s.totRound s.ring).1] }

def Sim.statusUpdate (s : Sim τ) : Sim τ := { s with ring := RingSim.statusUpdate s.ring }

variable [LE τ]

/-- The loops of `test_func` over the input; `arriving` says that the inner one is running.
The outer one goes on where the inner one ends, with a packet that has not arrived. -/
def testInput (A : RingNum τ) : List (Packet τ) → Bool → Sim τ → Except Overflow (Sim τ)
  | [], false, s => .ok { s with input := [] }
  | [], true, s => inRing A { s with input := [] }
  | p :: input, false, s =>
    if A.expired p.arrivalTime s.totRound then
      testInput A input false { s with discarded := s.discarded ++ [p] }
    else if A.arrived p.arrivalTime s.totRound then
      testInput A input true { s with inque := s.inque ++ [p] }
    else .ok { s with input := p :: input }
  | p :: input, true, s =>
    if A.arrived p.arrivalTime s.totRound then
      testInput A input true { s with inque := s.inque ++ [p] }
    else
      match inRing A { s with input := p :: input } with
      | .error e => .error e
      | .ok s =>
        if A.expired p.arrivalTime s.totRound then
          testInput A input false { s with discarded := s.discarded ++ [p] }
        else .ok s

def testFunc (A : RingNum τ) (s : Sim τ) : Except Overflow (Sim τ) :=
  match testInput A s.input false { s with totRound := s.totRound + 1 } with
  | .error e => .error e
  | .ok s => .ok (if s.totRound % 10 = 0 then s.deRing.statusUpdate else s)

def tick (A : RingNum τ) (s : Sim τ) (_ : Unit) : Except Overflow (Unit × Sim τ) :=
  match testFunc A s with
  | .error e => .error e
  | .ok s => .ok ((), s)

end MeasurementLimiter.RingSim
