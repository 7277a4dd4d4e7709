import MeasurementLimiter.TupleBuffers
import MeasurementLimiter.Sequences

namespace MeasurementLimiter.Retransmission

open FiveTuple Runs Sequences

/-- Why a call has no defined result: it leaves a buffer, or a counter leaves the range of an
`int`. -/
inductive LossFault
  | buffer (fault : TupleFault)
  | counter
  deriving DecidableEq

inductive LossLine
  | truncatedIp (length : ℕ)
  | loss (lossPacket totPacket1 : ℕ)
  | unknownVersion (version : ℕ)
  | badHlen (hlen : ℕ)
  | bytesMissing (bytes : ℕ)
  deriving DecidableEq

/-- The globals.  What `mp` has no entry for is `false`. -/
structure Loss where
  mp : BitVec 32 → Bool
  totPacket1 : ℕ
  lossPacket : ℕ

def Loss.new : Loss := ⟨fun _ => false, 0, 0⟩

def increment (n : ℕ) : Except LossFault ℕ :=
  if n + 1 < 2 ^ 31 then .ok (n + 1) else .error .counter

/-- A number that is in `mp` is a loss, another one is put there. -/
def Loss.count (s : Loss) (dstp : BitVec 32) : Except LossFault (List LossLine × Loss) :=
  if s.mp dstp = false then do
    let totPacket1 ← increment s.totPacket1
    return ([], { s with mp := Function.update s.mp dstp true, totPacket1 := totPacket1 })
  else do
    let lossPacket ← increment s.lossPacket
    return ([.loss lossPacket s.totPacket1], { s with lossPacket := lossPacket })

/-- What `handle_IP` reads: `len`, `ip_vhl` and the word behind the ports.  It also makes the
texts of the addresses, and does not print them. -/
def ipFields (f : Frame) : Except TupleFault (ℕ × BitVec 8 × BitVec 32) := do
  let len := (ntohs (← f.readShort 16)).toNat
  let ipVhl ← f.read 14
  let _ ← toStringIP (← f.readInt 26)
  let _ ← toStringIP (← f.readInt 30)
  let dstp ← f.readInt 38
  return (len, ipVhl, dstp)

/-- The checks at the end of `handle_IP`. -/
def headerLines (length len : ℕ) (ipVhl : BitVec 8) : List LossLine :=
  let hlen := ipVhl &&& 0x0f#8
  let version := (ipVhl &&& 0xf0#8) >>> 4
  if version ≠ 4#8 then [.unknownVersion version.toNat]
  else
    let bad := if hlen < 5#8 then [LossLine.badHlen hlen.toNat] else []
    let missing := if length < len then [LossLine.bytesMissing (len - length)] else []
    bad ++ missing

/-- `handle_IP`, which counts a packet before it checks the header. -/
def handleIp (s : Loss) (f : Frame) : Except LossFault (List LossLine × Loss) :=
  let length := f.len - 14#32
  if length < 20#32 then .ok ([.truncatedIp length.toNat], s)
  else do
    let (len, ipVhl, dstp) ← (ipFields f).mapError .buffer
    let (lines, s) ← s.count dstp
    return (lines ++ headerLines length.toNat len ipVhl, s)

/-- Four bytes, in the byte order of the host. -/
def wordAt (f : Frame) (i : ℕ) : BitVec 32 :=
  word (f.at i) (f.at (i + 1)) (f.at (i + 2)) (f.at (i + 3))

def connection (f : Frame) : BitVec 32 × BitVec 32 × ℕ × ℕ :=
  (wordAt f 26, wordAt f 30, f.bigEndian 34, f.bigEndian 36)

def sequenceNumber (f : Frame) : BitVec 32 := wordAt f 38

def dataOffset (f : Frame) : ℕ := (f.at 46).toNat / 16

/-- The IP packet is longer than its headers. -/
def CarriesPayload (f : Frame) : Prop := 20 + 4 * dataOffset f < f.bigEndian 16

/-- A frame with a well-formed TCP packet that is no fragment and has an IP header of five
words; the headers are captured. -/
structure TcpFrame (f : Frame) : Prop where
  caplen_le : f.bytes.length ≤ f.len.toNat
  etherType : f.bigEndian 12 = 0x0800
  version : (f.at 14).toNat = 16 * 4 + 5
  offset : f.bigEndian 20 % 2 ^ 14 = 0
  protocol : (f.at 23).toNat = 6
  five_le : 5 ≤ dataOffset f
  headers : 34 + 4 * dataOffset f ≤ f.bytes.length
  headers_le : 20 + 4 * dataOffset f ≤ f.bigEndian 16
  packet_le : 14 + f.bigEndian 16 ≤ f.len.toNat

/-- Some earlier packet had the sequence number. -/
def RepeatsNumber (earlier : List Frame) (f : Frame) : Prop :=
  ∃ g ∈ earlier, sequenceNumber g = sequenceNumber f

/-- The packet carries payload, and an earlier one of its connection that did had its sequence
number. -/
def Retransmits (earlier : List Frame) (f : Frame) : Prop :=
  CarriesPayload f ∧ ∃ g ∈ earlier,
    CarriesPayload g ∧ connection g = connection f ∧ sequenceNumber g = sequenceNumber f

instance (f : Frame) : Decidable (CarriesPayload f) := inferInstanceAs (Decidable (_ < _))

instance (earlier : List Frame) (f : Frame) : Decidable (RepeatsNumber earlier f) :=
  inferInstanceAs (Decidable (∃ g ∈ earlier, _))

instance (earlier : List Frame) (f : Frame) : Decidable (Retransmits earlier f) :=
  inferInstanceAs (Decidable (_ ∧ ∃ g ∈ earlier, _))

/-- The number of retransmissions in a trace. -/
def retransmissions (trace : List Frame) : ℕ := countAlong Retransmits [] trace

/-- `loss_packet` is the number of retransmissions in the trace. -/
def CountsRetransmissions (trace : List Frame) : Prop :=
  ∃ r, exec handleIp Loss.new trace = .ok r ∧ r.2.lossPacket = retransmissions trace

theorem Retransmits.repeats {earlier : List Frame} {f : Frame} (h : Retransmits earlier f) :
    RepeatsNumber earlier f := by
  obtain ⟨-, g, hg, -, -, hnumber⟩ := h
  exact ⟨g, hg, hnumber⟩

variable {f : Frame} {s s' : Loss}

theorem ipFields_eq (hcaplen : 42 ≤ f.bytes.length) : ipFields f =
    if f.ShortOctets 26 ∧ f.ShortOctets 30 then
      .ok ((ntohs (f.at 17 ++ f.at 16)).toNat, f.at 14, sequenceNumber f)
    else .error .temp := by
  rw [ipFields, Frame.readShort_eq (by omega), Frame.read_eq (by omega),
    Frame.readInt_eq (by omega), Frame.readInt_eq (by omega), Frame.readInt_eq (by omega)]
  simp only [ok_bind, toStringIP_frame, ite_bind_ite]
  rfl

theorem handleIp_ok_iff (h : TcpFrame f) : (∃ lines, handleIp s f = .ok (lines, s')) ↔
    (f.ShortOctets 26 ∧ f.ShortOctets 30) ∧
      ∃ lines, s.count (sequenceNumber f) = .ok (lines, s') := by
  have hfive := h.five_le
  have hheaders := h.headers
  have hcaplen := h.caplen_le
  unfold handleIp
  dsimp only
  rw [if_neg ((length_ge_iff (by omega)).mpr (by omega)), ipFields_eq (by omega)]
  by_cases hshort : f.ShortOctets 26 ∧ f.ShortOctets 30
  case neg => simp [hshort, Except.mapError]
  rw [if_pos hshort]
  simp only [Except.mapError, ok_bind, hshort, true_and, bind_eq_ok]
  constructor
  · rintro ⟨_, ⟨lines, s₁⟩, hcount, hend⟩
    obtain rfl : s₁ = s' := (Prod.mk.inj (Except.ok.inj hend)).2
    exact ⟨lines, hcount⟩
  · rintro ⟨lines, hcount⟩
    exact ⟨_, (lines, s'), hcount, rfl⟩

theorem increment_ok_iff {n : ℕ} {lines : ℕ → List LossLine} {next : ℕ → Loss} :
    (∃ l, (increment n >>= fun m => pure (lines m, next m)) = .ok (l, s')) ↔
      n + 1 < 2 ^ 31 ∧ s' = next (n + 1) := by
  rw [increment]
  by_cases hfits : n + 1 < 2 ^ 31
  case neg =>
    rw [if_neg hfits, error_bind]
    exact iff_of_false (by rintro ⟨l, h⟩; cases h) fun h => hfits h.1
  rw [if_pos hfits, ok_bind]
  constructor
  · rintro ⟨l, hnext⟩
    exact ⟨hfits, (Prod.mk.inj (Except.ok.inj hnext)).2.symm⟩
  · rintro ⟨-, rfl⟩
    exact ⟨_, rfl⟩

theorem count_seen {w : BitVec 32} (hw : s.mp w = true) : (∃ lines, s.count w = .ok (lines, s')) ↔
    s.lossPacket + 1 < 2 ^ 31 ∧ s' = { s with lossPacket := s.lossPacket + 1 } := by
  rw [Loss.count, if_neg (by simp [hw])]
  exact increment_ok_iff

theorem count_new {w : BitVec 32} (hw : s.mp w = false) :
    (∃ lines, s.count w = .ok (lines, s')) ↔ s.totPacket1 + 1 < 2 ^ 31 ∧
      s' = { s with mp := Function.update s.mp w true, totPacket1 := s.totPacket1 + 1 } := by
  rw [Loss.count, if_pos hw]
  exact increment_ok_iff

/-- `mp` holds the sequence numbers of the packets so far. -/
def Holds (s : Loss) (earlier : List Frame) : Prop :=
  ∀ w, s.mp w = true ↔ ∃ g ∈ earlier, sequenceNumber g = w

theorem holds_new : Holds Loss.new [] := by
  intro w
  simp [Loss.new]

theorem Holds.seen {earlier : List Frame} (h : Holds s earlier)
    (hseen : RepeatsNumber earlier f) (n : ℕ) :
    Holds { s with lossPacket := n } (earlier ++ [f]) := by
  intro w
  refine (h w).trans ?_
  simp only [List.mem_append, List.mem_singleton, or_and_right, exists_or, exists_eq_left]
  constructor
  · exact .inl
  · rintro (hw | rfl)
    · exact hw
    · exact hseen

theorem Holds.new {earlier : List Frame} (h : Holds s earlier) (n : ℕ) :
    Holds { s with mp := Function.update s.mp (sequenceNumber f) true, totPacket1 := n }
      (earlier ++ [f]) := by
  intro w
  simp only [List.mem_append, List.mem_singleton, or_and_right, exists_or, exists_eq_left, ← h w]
  by_cases hw : w = sequenceNumber f
  · simp [hw]
  · simp [hw, Ne.symm hw]

/-- `loss_packet` at the end of the trace counts the packets that repeat a sequence number, and
there is an end if and only if all addresses are short and neither counter overruns. -/
theorem exec_loss_iff {earlier trace : List Frame} (htcp : ∀ f ∈ trace, TcpFrame f)
    (h : Holds s earlier) (hloss : s.lossPacket < 2 ^ 31) (htot : s.totPacket1 < 2 ^ 31) (n : ℕ) :
    (∃ r, exec handleIp s trace = .ok r ∧ r.2.lossPacket = n) ↔
      (∀ f ∈ trace, f.ShortOctets 26 ∧ f.ShortOctets 30) ∧
        s.lossPacket + countAlong RepeatsNumber earlier trace = n ∧ n < 2 ^ 31 ∧
        s.totPacket1 + countAlong (fun l f => ¬RepeatsNumber l f) earlier trace < 2 ^ 31 := by
  induction trace generalizing s earlier with
  | nil =>
    simp only [exec, countAlong, Nat.add_zero]
    constructor
    · rintro ⟨_, hr, hn⟩
      obtain rfl := Except.ok.inj hr
      exact ⟨by simp, hn, hn ▸ hloss, htot⟩
    · rintro ⟨-, hn, -⟩
      exact ⟨_, rfl, hn⟩
  | cons f trace ih =>
    have hrest := fun g hg => htcp g (List.mem_cons_of_mem f hg)
    rw [exec_cons_iff (P := fun t : Loss => t.lossPacket = n)]
    simp only [handleIp_ok_iff (htcp f List.mem_cons_self), List.forall_mem_cons]
    by_cases hseen : RepeatsNumber earlier f
    case pos =>
      rw [countAlong_pos hseen, countAlong_neg (not_not_intro hseen)]
      simp only [count_seen ((h _).mpr hseen)]
      constructor
      · rintro ⟨_, ⟨hshort, hfits, rfl⟩, hend⟩
        obtain ⟨hall, hn, hlt, htot'⟩ := (ih hrest (h.seen hseen _) hfits htot).mp hend
        exact ⟨⟨hshort, hall⟩, by rw [← hn, add_right_comm, add_assoc], hlt, htot'⟩
      · rintro ⟨⟨hshort, hall⟩, hn, hlt, htot'⟩
        have hfits : s.lossPacket + 1 < 2 ^ 31 := by omega
        refine ⟨_, ⟨hshort, hfits, rfl⟩, (ih hrest (h.seen hseen _) hfits htot).mpr ?_⟩
        exact ⟨hall, by rw [← hn, add_right_comm, add_assoc], hlt, htot'⟩
    have hnew : s.mp (sequenceNumber f) = false :=
      Bool.eq_false_iff.mpr fun hmp => hseen ((h _).mp hmp)
    rw [countAlong_neg hseen, countAlong_pos hseen]
    simp only [count_new hnew]
    constructor
    · rintro ⟨_, ⟨hshort, hfits, rfl⟩, hend⟩
      obtain ⟨hall, hn, hlt, htot'⟩ := (ih hrest (h.new _) hloss hfits).mp hend
      exact ⟨⟨hshort, hall⟩, hn, hlt, by rwa [← add_assoc, add_right_comm]⟩
    · rintro ⟨⟨hshort, hall⟩, hn, hlt, htot'⟩
      have hfits : s.totPacket1 + 1 < 2 ^ 31 := by omega
      refine ⟨_, ⟨hshort, hfits, rfl⟩, (ih hrest (h.new _) hloss hfits).mpr ?_⟩
      exact ⟨hall, hn, hlt, by rwa [add_right_comm, add_assoc]⟩

theorem retransmissions_eq_iff (trace : List Frame) :
    retransmissions trace = countAlong RepeatsNumber [] trace ↔
      ∀ earlier f, earlier ++ [f] <+: trace → RepeatsNumber earlier f → Retransmits earlier f :=
  countAlong_eq_iff (P := RepeatsNumber) (Q := Retransmits) (fun _ _ h => h.repeats) [] trace

/-- `loss_packet` is the number of retransmissions exactly on the traces with short addresses
where only retransmissions repeat a sequence number, as far as the counters go. -/
theorem countsRetransmissions_iff {trace : List Frame} (htcp : ∀ f ∈ trace, TcpFrame f) :
    CountsRetransmissions trace ↔
      (∀ f ∈ trace, f.ShortOctets 26 ∧ f.ShortOctets 30) ∧
      (∀ earlier f, earlier ++ [f] <+: trace → RepeatsNumber earlier f → Retransmits earlier f) ∧
      retransmissions trace < 2 ^ 31 ∧ trace.length - retransmissions trace < 2 ^ 31 := by
  have hsum := countAlong_add_not (P := RepeatsNumber) [] trace
  rw [CountsRetransmissions, exec_loss_iff htcp holds_new (by decide) (by decide),
    ← retransmissions_eq_iff]
  change _ ∧ 0 + _ = _ ∧ _ ∧ 0 + _ < _ ↔ _ ∧ retransmissions trace = _ ∧ _
  apply and_congr_right
  intro
  omega

def tcpSample (srcPort ack : BitVec 8) (payload : List (BitVec 8)) : Frame :=
  let bytes := List.replicate 12 0x02#8 ++ [0x08#8, 0x00#8, 0x45#8, 0x00#8, 0x00#8,
    BitVec.ofNat 8 (40 + payload.length), 0x00#8, 0x01#8, 0x00#8, 0x00#8, 0x40#8, 0x06#8, 0x00#8,
    0x00#8, 10#8, 0#8, 0#8, 1#8, 10#8, 0#8, 0#8, 2#8, 0x04#8, srcPort, 0x00#8, 0x50#8, 0x00#8,
    0x00#8, 0x00#8, 0x07#8, 0x00#8, 0x00#8, 0x00#8, ack, 0x50#8, 0x10#8, 0xff#8, 0xff#8, 0x00#8,
    0x00#8, 0x00#8, 0x00#8] ++ payload
  ⟨bytes, BitVec.ofNat 32 bytes.length⟩

theorem tcpSample_tcp : TcpFrame (tcpSample 1#8 9#8 [0x61#8]) := by
  constructor <;> decide

theorem countsRetransmissions_iff_sample :
    CountsRetransmissions [tcpSample 1#8 9#8 [0x61#8], tcpSample 1#8 9#8 [0x61#8]] := by
  have htcp : ∀ f ∈ [tcpSample 1#8 9#8 [0x61#8], tcpSample 1#8 9#8 [0x61#8]], TcpFrame f := by
    simp [tcpSample_tcp]
  exact (countsRetransmissions_iff htcp).mpr ⟨by decide +kernel,
    (retransmissions_eq_iff _).mp (by decide +kernel), by decide +kernel, by decide +kernel⟩

/-- Of two acknowledgements without payload the second counts as lost. -/
theorem acknowledgement_lost :
    (∀ f ∈ [tcpSample 1#8 9#8 [], tcpSample 1#8 10#8 []], TcpFrame f) ∧
    (∃ r, exec handleIp Loss.new [tcpSample 1#8 9#8 [], tcpSample 1#8 10#8 []] = .ok r ∧
      r.2.lossPacket = 1) ∧
    retransmissions [tcpSample 1#8 9#8 [], tcpSample 1#8 10#8 []] = 0 ∧
    ¬∀ trace, (∀ f ∈ trace, TcpFrame f) → CountsRetransmissions trace := by
  have htcp : ∀ f ∈ [tcpSample 1#8 9#8 [], tcpSample 1#8 10#8 []], TcpFrame f := by
    simp only [List.forall_mem_cons]
    refine ⟨?_, ?_, by simp⟩ <;> constructor <;> decide
  have hexec : ∃ r, exec handleIp Loss.new [tcpSample 1#8 9#8 [], tcpSample 1#8 10#8 []] = .ok r ∧
      r.2.lossPacket = 1 :=
    exists_ok (fun r : List (Frame × List LossLine) × Loss => r.2.lossPacket) (by decide +kernel)
  have hnone : retransmissions [tcpSample 1#8 9#8 [], tcpSample 1#8 10#8 []] = 0 := by
    decide +kernel
  refine ⟨htcp, hexec, hnone, ?_⟩
  intro hall
  obtain ⟨r, hr, hcount⟩ := hall _ htcp
  obtain ⟨r', hr', hone⟩ := hexec
  obtain rfl : r = r' := Except.ok.inj (hr.symm.trans hr')
  rw [hnone, hone] at hcount
  exact absurd hcount (by decide)

end MeasurementLimiter.Retransmission
