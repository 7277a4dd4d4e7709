import MeasurementLimiter.RateMeter
import MeasurementLimiter.Sequences

namespace MeasurementLimiter.MeasureRate

open Runs Sequences
open FiveTuple (Frame TupleFault Ipv4Frame ntohs toStringIP)

def qn : ℕ := 65536

/-- What `handle_IP` of `count_burst.cpp` and `nstream.cpp` takes from a frame: the lines it prints
and, if the packet is handled, what it takes for the ports, and `len`.  The texts of the addresses
are written into buffers and not used. -/
def streamHeader (f : Frame) : Except TupleFault (List Line × Option ((ℕ × ℕ) × ℕ)) :=
  let length := f.len - 14#32
  if length < 20#32 then .ok ([.truncatedIp length.toNat], none)
  else do
    let len := (ntohs (← f.readShort 16)).toNat
    let ipVhl ← f.read 14
    let _ ← toStringIP (← f.readInt 26)
    let _ ← toStringIP (← f.readInt 30)
    let sp ← f.readShort 34
    let dstp ← f.readShort 36
    let checks := ipChecks length ipVhl len
    return (checks.1, checks.2.map fun len => ((big2small sp, big2small dstp), len))

/-- The globals of the program.  `mp` is zero for the pairs that are not in the map. -/
structure Streams where
  mp : ℕ × ℕ → ℕ
  streamId : ℕ
  totIppktLen : ℕ → ℤ
  q : ℕ → List ℚ
  start : ℕ → ℤ
  nxt : ℕ → ℤ
  totPacket : ℤ

def Streams.new : Streams :=
  ⟨fun _ => 0, 0, fun _ => 0, fun _ => [], fun _ => -1, fun _ => -1, 0⟩

/-- A pair of ports that has no number gets the next one. -/
def Streams.number (ports : ℕ × ℕ) (s : Streams) : Streams :=
  if s.mp ports = 0 then
    { s with streamId := s.streamId + 1, mp := Function.update s.mp ports (s.streamId + 1) }
  else s

/-- `handle_IP` where it counts `counted len` bytes of a packet.  The arrays have no place for more
than `qn` streams. -/
def handleStream (I : IntRange) (counted : ℕ → ℤ) (s : Streams) (f : Frame) :
    Except RateFault (List Line × Streams) :=
  match streamHeader f with
  | .error e => .error (.buffer e)
  | .ok (lines, none) => .ok (lines, s)
  | .ok (lines, some (ports, len)) =>
    let s := s.number ports
    let nowId := s.mp ports
    if nowId < qn then do
      let bytes ← I.keep (s.totIppktLen nowId + counted len)
      let totPacket ← I.keep (s.totPacket + 1)
      return (lines,
        { s with totIppktLen := Function.update s.totIppktLen nowId bytes, totPacket })
    else .error .index

/-- The stream `nowId` after its rate was taken. -/
def Streams.sample (interval : ℤ) (nowId : ℕ) (s : Streams) : Streams :=
  { s with
    q := Function.update s.q nowId
      (pushRate (s.q nowId) (rate interval (s.totIppktLen nowId)))
    start := Function.update s.start nowId (s.start nowId + interval)
    nxt := Function.update s.nxt nowId (s.nxt nowId + interval)
    totIppktLen := Function.update s.totIppktLen nowId 0 }

/-- The body of the loop of `test_func`, with `tot_byte` before the globals. -/
def tickStream (I : IntRange) (interval : ℤ) (s : ℤ × Streams) (nowId : ℕ) :
    Except RateFault (ℤ × Streams) :=
  if nowId < qn then do
    let totByte ← I.keep (s.1 + s.2.totIppktLen nowId)
    let _ ← getRatio (pushRate (s.2.q nowId) (rate interval (s.2.totIppktLen nowId)))
    return (totByte, s.2.sample interval nowId)
  else .error .index

def testFunc (I : IntRange) (interval : ℤ) (s : Streams) :
    Except RateFault (List Line × Streams) := do
  let (totByte, s) ← (List.range' 1 s.streamId).foldlM (tickStream I interval) (0, s)
  return ([.total totByte], s)

/-- What happens to the program: a packet comes, or the timer ticks.  One does not come into the
other. -/
inductive StreamCall
  | packet (f : Frame)
  | tick
  deriving DecidableEq

/-- `count_burst`.  It counts the whole length of a packet.  No tick comes with an `interval`
of 0, which stops the timer. -/
def countBurst (I : IntRange) (interval : ℤ) (s : Streams) :
    StreamCall → Except RateFault (List Line × Streams)
  | .packet f => handleStream I Nat.cast s f
  | .tick => testFunc I interval s

def packetsOf (l : List StreamCall) : List Frame :=
  l.filterMap fun
    | .packet f => some f
    | .tick => none

/-- The ports and the length of a packet, if it is handled. -/
def streamPacket (f : Frame) : Option ((ℕ × ℕ) × ℕ) := (streamHeader f).toOption.bind Prod.snd

def handled (ps : List Frame) : List ((ℕ × ℕ) × ℕ) := ps.filterMap streamPacket

def seenPorts (ps : List Frame) : Finset (ℕ × ℕ) := ((handled ps).map Prod.fst).toFinset

/-- The streams in the order of their first packets. -/
def portOrder (l : List StreamCall) : List (ℕ × ℕ) :=
  firstSeen ((handled (packetsOf l)).map Prod.fst)

/-- The bytes that are counted of all packets. -/
def handledBytes (counted : ℕ → ℤ) (ps : List Frame) : ℤ :=
  ((handled ps).map fun e => counted e.2).sum

/-- The bytes that are counted of one stream. -/
def portBytes (counted : ℕ → ℤ) (ports : ℕ × ℕ) (ps : List Frame) : ℤ :=
  (((handled ps).filter fun e => e.1 = ports).map fun e => counted e.2).sum

/-- A packet goes into the open interval, and a tick closes it. -/
def addCall (I : List (List Frame) × List Frame) : StreamCall → List (List Frame) × List Frame
  | .packet f => (I.1, I.2 ++ [f])
  | .tick => (I.1 ++ [I.2], [])

/-- The packets of each interval that a tick has closed, and those of the open one. -/
def intervalsOf (l : List StreamCall) : List (List Frame) × List Frame := l.foldl addCall ([], [])

/-- The rate of a stream in each closed interval from the one of its first packet on. -/
def streamRates (interval : ℤ) (counted : ℕ → ℤ) (ports : ℕ × ℕ) (l : List StreamCall) : List ℚ :=
  ((intervalsOf l).1.dropWhile fun ps => ports ∉ seenPorts ps).map fun ps =>
    rate interval (portBytes counted ports ps)

/-- The bytes of a line that `test_func` prints. -/
def Line.bytes : Line → ℤ
  | .total bytes => bytes
  | _ => 0

/-- The meter of one stream: nothing before the first packet, and from then on the bytes since
the last tick and the last rates. -/
abbrev Meter := Option (ℤ × List ℚ)

/-- One call of the meter: a tick, or the bytes of a packet. -/
def meterCall (interval : ℤ) : Meter → Option ℤ → Meter
  | none, none => none
  | none, some bytes => some (bytes, [])
  | some (tot, q), none => some (0, pushRate q (rate interval tot))
  | some (tot, q), some bytes => some (tot + bytes, q)

/-- What the stream of `ports` sees of a call. -/
def portView (counted : ℕ → ℤ) (ports : ℕ × ℕ) : StreamCall → Option (Option ℤ)
  | .tick => some none
  | .packet f =>
    (streamPacket f).bind fun e => if e.1 = ports then some (some (counted e.2)) else none

/-- The meter of `ports` after the calls `l`. -/
def meterOf (interval : ℤ) (counted : ℕ → ℤ) (ports : ℕ × ℕ) (l : List StreamCall) : Meter :=
  (l.filterMap (portView counted ports)).foldl (meterCall interval) none

def Streams.meter (s : Streams) (ports : ℕ × ℕ) : Meter :=
  if s.mp ports = 0 then none else some (s.totIppktLen (s.mp ports), s.q (s.mp ports))

/-- The bytes of all streams that are not printed yet. -/
def Streams.pending (s : Streams) : ℤ := ∑ id ∈ Finset.Icc 1 s.streamId, s.totIppktLen id

variable {interval : ℤ} {counted : ℕ → ℤ} {f : Frame} {e : (ℕ × ℕ) × ℕ} {ps ps' : List Frame}
  {l : List StreamCall} {ports : ℕ × ℕ} {lines : List Line}

theorem handled_append (ps ps' : List Frame) : handled (ps ++ ps') = handled ps ++ handled ps' :=
  List.filterMap_append

theorem handled_none (ps : List Frame) (h : streamPacket f = none) :
    handled (ps ++ [f]) = handled ps := by
  rw [handled_append, handled, handled, List.filterMap_cons_none h, List.filterMap_nil,
    List.append_nil]

theorem handled_some (ps : List Frame) (h : streamPacket f = some e) :
    handled (ps ++ [f]) = handled ps ++ [e] := by
  rw [handled_append, handled, handled, List.filterMap_cons_some h, List.filterMap_nil]

theorem mem_seenPorts_append :
    ports ∈ seenPorts (ps ++ ps') ↔ ports ∈ seenPorts ps ∨ ports ∈ seenPorts ps' := by
  simp only [seenPorts, handled_append, List.map_append, List.toFinset_append, Finset.mem_union]

theorem mem_seenPorts_none (h : streamPacket f = none) :
    ports ∈ seenPorts (ps ++ [f]) ↔ ports ∈ seenPorts ps := by
  rw [seenPorts, handled_none _ h]
  rfl

theorem mem_seenPorts_some (h : streamPacket f = some e) :
    ports ∈ seenPorts (ps ++ [f]) ↔ ports ∈ seenPorts ps ∨ e.1 = ports := by
  simp [seenPorts, handled_some _ h, eq_comm, or_comm]

theorem portBytes_eq_zero (h : ports ∉ seenPorts ps) : portBytes counted ports ps = 0 := by
  have hnone : (handled ps).filter (fun e => e.1 = ports) = [] := by
    rw [List.filter_eq_nil_iff]
    intro e he heq
    rw [decide_eq_true_eq] at heq
    exact h (List.mem_toFinset.mpr (List.mem_map.mpr ⟨e, he, heq⟩))
  rw [portBytes, hnone]
  rfl

theorem portBytes_none (h : streamPacket f = none) :
    portBytes counted ports (ps ++ [f]) = portBytes counted ports ps := by
  rw [portBytes, portBytes, handled_none _ h]

theorem portBytes_some (h : streamPacket f = some e) :
    portBytes counted ports (ps ++ [f]) =
      portBytes counted ports ps + if e.1 = ports then counted e.2 else 0 := by
  simp only [portBytes, handled_some _ h, List.filter_append, List.map_append, List.sum_append]
  split_ifs with heq
  · rw [List.filter_singleton]
    simp [heq]
  · rw [List.filter_singleton]
    simp [heq]

theorem handledBytes_some (h : streamPacket f = some e) :
    handledBytes counted (ps ++ [f]) = handledBytes counted ps + counted e.2 := by
  rw [handledBytes, handled_some _ h, List.map_append, List.sum_append]
  simp [handledBytes]

theorem packetsOf_append (l l' : List StreamCall) :
    packetsOf (l ++ l') = packetsOf l ++ packetsOf l' := List.filterMap_append

theorem packetsOf_packet (l : List StreamCall) (f : Frame) :
    packetsOf (l ++ [.packet f]) = packetsOf l ++ [f] := packetsOf_append l _

theorem packetsOf_tick (l : List StreamCall) : packetsOf (l ++ [.tick]) = packetsOf l := by
  rw [packetsOf_append]
  exact List.append_nil _

theorem mem_packetsOf : f ∈ packetsOf l ↔ .packet f ∈ l := by
  rw [packetsOf, List.mem_filterMap]
  constructor
  · rintro ⟨c, hc, hf⟩
    cases c with
    | tick => cases hf
    | packet g => exact Option.some.inj hf ▸ hc
  · exact fun h => ⟨_, h, rfl⟩

theorem intervalsOf_concat (l : List StreamCall) (c : StreamCall) :
    intervalsOf (l ++ [c]) = addCall (intervalsOf l) c := by
  rw [intervalsOf, List.foldl_append]
  rfl

theorem packetsOf_intervals (l : List StreamCall) :
    packetsOf l = (intervalsOf l).1.flatten ++ (intervalsOf l).2 := by
  induction l using List.reverseRecOn with
  | nil => rfl
  | append_singleton l c ih =>
    rw [intervalsOf_concat]
    cases c with
    | packet f => rw [packetsOf_packet, ih, List.append_assoc, addCall]
    | tick => rw [packetsOf_tick, ih, addCall, List.flatten_append, List.flatten_singleton,
        List.append_nil]

theorem mem_seenPorts_intervals :
    ports ∈ seenPorts (packetsOf l) ↔
      (∃ ps ∈ (intervalsOf l).1, ports ∈ seenPorts ps) ∨ ports ∈ seenPorts (intervalsOf l).2 := by
  rw [packetsOf_intervals, mem_seenPorts_append]
  refine or_congr_left ?_
  induction (intervalsOf l).1 with
  | nil => simp [seenPorts, handled]
  | cons ps I ih => simp only [List.flatten_cons, mem_seenPorts_append, ih, List.exists_mem_cons_iff]

theorem streamRates_packet (l : List StreamCall) (f : Frame) :
    streamRates interval counted ports (l ++ [.packet f]) = streamRates interval counted ports l := by
  rw [streamRates, intervalsOf_concat]
  rfl

theorem streamRates_tick (h : ports ∈ seenPorts (packetsOf l)) :
    streamRates interval counted ports (l ++ [.tick]) =
      streamRates interval counted ports l ++
        [rate interval (portBytes counted ports (intervalsOf l).2)] := by
  rw [streamRates, intervalsOf_concat, addCall, List.dropWhile_append, streamRates]
  split_ifs with hempty
  · rw [List.isEmpty_iff] at hempty
    have hopen : ports ∈ seenPorts (intervalsOf l).2 := by
      refine (mem_seenPorts_intervals.mp h).resolve_left ?_
      rintro ⟨ps, hps, hmem⟩
      have := List.dropWhile_eq_nil_iff.mp hempty ps hps
      exact absurd hmem (by simpa using this)
    rw [hempty, List.dropWhile_cons_of_neg (by simpa using hopen)]
    rfl
  · rw [List.map_append]
    rfl

theorem streamRates_eq_nil (h : ports ∉ seenPorts (packetsOf l)) :
    streamRates interval counted ports l = [] := by
  rw [streamRates, List.map_eq_nil_iff, List.dropWhile_eq_nil_iff]
  intro ps hps
  rw [decide_eq_true_eq]
  exact fun hmem => h (mem_seenPorts_intervals.mpr (.inl ⟨ps, hps, hmem⟩))

theorem portOrder_none (h : streamPacket f = none) (l : List StreamCall) :
    portOrder (l ++ [.packet f]) = portOrder l := by
  rw [portOrder, packetsOf_packet, handled_none _ h]
  rfl

theorem portOrder_some (h : streamPacket f = some e) (l : List StreamCall) :
    portOrder (l ++ [.packet f]) = appendNew (portOrder l) e.1 := by
  rw [portOrder, packetsOf_packet, handled_some _ h, List.map_append, List.map_singleton,
    firstSeen_concat]
  rfl

theorem portOrder_tick (l : List StreamCall) : portOrder (l ++ [.tick]) = portOrder l := by
  rw [portOrder, packetsOf_tick]
  rfl

theorem portOrder_mono {l' : List StreamCall} (h : l' <+: l) : portOrder l' <+: portOrder l := by
  obtain ⟨rest, rfl⟩ := h
  rw [portOrder, portOrder, packetsOf_append, handled_append, List.map_append]
  exact firstSeen_prefix _ _

theorem meterOf_concat (l : List StreamCall) (c : StreamCall) :
    meterOf interval counted ports (l ++ [c]) =
      ([c].filterMap (portView counted ports)).foldl (meterCall interval)
        (meterOf interval counted ports l) := by
  rw [meterOf, List.filterMap_append, List.foldl_append]
  rfl

theorem meterOf_tick (l : List StreamCall) :
    meterOf interval counted ports (l ++ [.tick]) =
      meterCall interval (meterOf interval counted ports l) none := by
  rw [meterOf_concat]
  rfl

theorem meterOf_skip (h : streamPacket f = none) (l : List StreamCall) :
    meterOf interval counted ports (l ++ [.packet f]) = meterOf interval counted ports l := by
  rw [meterOf_concat, List.filterMap_cons_none]
  · rfl
  · simp [portView, h]

theorem meterOf_other (h : streamPacket f = some e) (hne : e.1 ≠ ports) (l : List StreamCall) :
    meterOf interval counted ports (l ++ [.packet f]) = meterOf interval counted ports l := by
  rw [meterOf_concat, List.filterMap_cons_none]
  · rfl
  · simp [portView, h, hne]

theorem meterOf_own (h : streamPacket f = some e) (l : List StreamCall) :
    meterOf interval counted e.1 (l ++ [.packet f]) =
      meterCall interval (meterOf interval counted e.1 l) (some (counted e.2)) := by
  rw [meterOf_concat, List.filterMap_cons_some]
  · rfl
  · simp [portView, h]

theorem meterOf_eq (interval : ℤ) (counted : ℕ → ℤ) (ports : ℕ × ℕ) (l : List StreamCall) :
    meterOf interval counted ports l =
      if ports ∈ seenPorts (packetsOf l) then
        some (portBytes counted ports (intervalsOf l).2,
          lastRates queueSize (streamRates interval counted ports l))
      else none := by
  induction l using List.reverseRecOn with
  | nil => rfl
  | append_singleton l c ih =>
    have hopen : ports ∉ seenPorts (packetsOf l) → portBytes counted ports (intervalsOf l).2 = 0 :=
      fun hnot => portBytes_eq_zero fun hmem => hnot (mem_seenPorts_intervals.mpr (.inr hmem))
    cases c with
    | tick =>
      rw [meterOf_tick, ih, packetsOf_tick, intervalsOf_concat]
      split_ifs with hseen
      · rw [streamRates_tick hseen, ← pushRate_lastRates]
        rfl
      · rfl
    | packet f =>
      rw [packetsOf_packet, intervalsOf_concat, streamRates_packet]
      cases hf : streamPacket f with
      | none =>
        rw [meterOf_skip hf, ih, addCall, portBytes_none hf]
        exact if_congr (mem_seenPorts_none hf).symm rfl rfl
      | some e =>
        rw [addCall, portBytes_some hf]
        by_cases hown : e.1 = ports
        · subst hown
          rw [meterOf_own hf, ih, if_pos rfl, if_pos ((mem_seenPorts_some hf).mpr (.inr rfl))]
          split_ifs with hseen
          · rfl
          · rw [hopen hseen, streamRates_eq_nil hseen, zero_add]
            rfl
        · rw [meterOf_other hf hown, ih, if_neg hown, add_zero]
          refine if_congr ?_ rfl rfl
          rw [mem_seenPorts_some hf]
          exact ⟨Or.inl, fun h => h.resolve_right hown⟩

theorem streamPacket_none (h : streamHeader f = .ok (lines, none)) : streamPacket f = none := by
  rw [streamPacket, h]
  rfl

theorem streamPacket_some (h : streamHeader f = .ok (lines, some e)) : streamPacket f = some e := by
  rw [streamPacket, h]
  rfl

/-- `handle_IP` gives up an IPv4 packet whose addresses are too long for the buffers, and takes the
words behind a header of five words for the ports. -/
theorem streamHeader_eq {ihl : ℕ} (h : Ipv4Frame f ihl) : ∃ lines, streamHeader f =
    if f.ShortOctets 26 ∧ f.ShortOctets 30 then .ok (lines, some (f.portWords, f.bigEndian 16))
    else .error .temp := by
  have hcaplen := h.length_ge
  have hlen := (FiveTuple.length_ge_iff (f := f) (by rw [h.captured]; omega)).mpr
    (by rw [h.captured]; omega)
  have hversion : (f.at 14).toNat / 16 = 4 := by
    have hvhl := h.version
    have hihl := h.le_fifteen
    omega
  have htotal : (f.at 16 ++ f.at 17).toNat = f.bigEndian 16 := FiveTuple.toNat_append_byte _ _
  have hchecks := ipChecks_len (f.len - 14#32) (f.at 14) (f.bigEndian 16)
  rw [if_pos hversion] at hchecks
  unfold streamHeader
  dsimp only
  rw [if_neg hlen, Frame.readShort_eq (by omega), Frame.read_eq (by omega),
    Frame.readInt_eq (by omega), Frame.readInt_eq (by omega), Frame.readShort_eq (by omega),
    Frame.readShort_eq (by omega)]
  simp only [ok_bind, FiveTuple.toStringIP_frame, FiveTuple.big2small_at, FiveTuple.ntohs_append,
    htotal, hchecks, ite_bind_ite]
  exact ⟨_, rfl⟩

/-- The addresses of the packets fit in the buffers. -/
def ShortAddresses (l : List StreamCall) : Prop :=
  ∀ f ∈ packetsOf l, f.ShortOctets 26 ∧ f.ShortOctets 30

instance (l : List StreamCall) : Decidable (ShortAddresses l) :=
  inferInstanceAs (Decidable (∀ f ∈ packetsOf l, _))

theorem streamPacket_ipv4 {ihl : ℕ} (h : Ipv4Frame f ihl)
    (hshort : f.ShortOctets 26 ∧ f.ShortOctets 30) :
    streamPacket f = some (f.portWords, f.bigEndian 16) := by
  obtain ⟨lines, hheader⟩ := streamHeader_eq h
  rw [if_pos hshort] at hheader
  exact streamPacket_some hheader

theorem streamHeader_ok_iff {ihl : ℕ} (h : Ipv4Frame f ihl) :
    (∃ r, streamHeader f = .ok r) ↔ f.ShortOctets 26 ∧ f.ShortOctets 30 := by
  obtain ⟨lines, hheader⟩ := streamHeader_eq h
  rw [hheader]
  split_ifs with hshort <;> simp [hshort]

theorem handled_ipv4 (hip : ∀ f ∈ packetsOf l, Ipv4Frame f f.ihl) (hshort : ShortAddresses l) :
    handled (packetsOf l) = (packetsOf l).map fun f => (f.portWords, f.bigEndian 16) := by
  rw [handled, ← List.filterMap_eq_map]
  exact List.filterMap_congr fun f hf => streamPacket_ipv4 (hip f hf) (hshort f hf)

theorem portOrder_ipv4 (hip : ∀ f ∈ packetsOf l, Ipv4Frame f f.ihl) (hshort : ShortAddresses l) :
    portOrder l = firstSeen ((packetsOf l).map Frame.portWords) := by
  rw [portOrder, handled_ipv4 hip hshort, List.map_map]
  rfl

/-- An IPv4 packet of UDP with `n` bytes from port `sp` of `a.0.0.1` to port 80 of 10.0.0.2. -/
def streamFrame (n : ℕ) (a : BitVec 8) (sp : BitVec 16) : Frame :=
  let ipLen := BitVec.ofNat 16 (28 + n)
  let high (x : BitVec 16) : BitVec 8 := (x >>> 8).setWidth 8
  let bytes := List.replicate 12 0x02#8 ++ [0x08#8, 0x00#8, 0x45#8, 0x00#8, high ipLen,
    ipLen.setWidth 8, 0x00#8, 0x01#8, 0x00#8, 0x00#8, 0x40#8, 0x11#8, 0x00#8, 0x00#8, a, 0#8, 0#8,
    1#8, 10#8, 0#8, 0#8, 2#8, high sp, sp.setWidth 8, 0x00#8, 0x50#8, 0x00#8, 0x08#8, 0x00#8, 0x00#8]
    ++ List.replicate n 0x00#8
  ⟨bytes, BitVec.ofNat 32 bytes.length⟩

end MeasurementLimiter.MeasureRate
