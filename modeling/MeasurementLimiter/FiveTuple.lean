import MeasurementLimiter.Frames

namespace MeasurementLimiter.FiveTuple

open MeasureRate Runs

inductive TupleLine
  | shortFrame
  | arp
  | rarp
  | unknown
  | truncatedIp (length : ℕ)
  | tuple (protocol : ℕ) (src dst : List Char) (srcPort dstPort : ℕ)
  | unknownVersion (version : ℕ)
  | badHlen (hlen : ℕ)
  | bytesMissing (bytes : ℕ)
  deriving DecidableEq

/-- `handle_IP`.  It looks at `len`, not at `caplen`, and takes the ports behind a header of five
words, whatever `hlen` is. -/
def handleIp (f : Frame) : Except TupleFault (List TupleLine) :=
  let length := f.len - 14#32
  if length < 20#32 then .ok [.truncatedIp length.toNat]
  else do
    let len := (ntohs (← f.readShort 16)).toNat
    let ipVhl ← f.read 14
    let hlen := ipVhl &&& 0x0f#8
    let version := (ipVhl &&& 0xf0#8) >>> 4
    let src ← toStringIP (← f.readInt 26)
    let protocol ← f.read 23
    let dst ← toStringIP (← f.readInt 30)
    let sp ← f.readShort 34
    let dstp ← f.readShort 36
    let tuple := TupleLine.tuple protocol.toNat src dst (big2small sp) (big2small dstp)
    if version ≠ 4#8 then return [tuple, .unknownVersion version.toNat]
    else
      let bad := if hlen < 5#8 then [TupleLine.badHlen hlen.toNat] else []
      let missing := if length.toNat < len then [TupleLine.bytesMissing (len - length.toNat)] else []
      return tuple :: (bad ++ missing)

/-- `handle_ethernet`: the lines it prints, and the type it returns. -/
def handleEthernet (f : Frame) : Except TupleFault (List TupleLine × BitVec 16) :=
  if f.bytes.length < 14 then .ok ([.shortFrame], 0xffff#16)
  else do
    let raw ← f.readShort 12
    let etherType := ntohs raw
    if etherType = 0x0800#16 then return ([], etherType)
    else if etherType = 0x0806#16 then return ([.arp], etherType)
    -- compared in the byte order of the frame
    else if raw = 0x8035#16 then return ([.rarp], etherType)
    else return ([.unknown], etherType)

def myCallback (f : Frame) : Except TupleFault (List TupleLine) := do
  let (lines, type) ← handleEthernet f
  if type = 0x0800#16 then return lines ++ (← handleIp f)
  else return lines

/-- The program prints the five tuple of the packet. -/
def PrintsTuple (f : Frame) (ihl : ℕ) : Prop :=
  ∃ rest, myCallback f = .ok (.tuple (f.at 23).toNat (f.dotted 26) (f.dotted 30)
    (f.bigEndian (14 + 4 * ihl)) (f.bigEndian (14 + 4 * ihl + 2)) :: rest)

variable {f : Frame} {ihl : ℕ}

theorem handleIp_eq (hlen : 34 ≤ f.len.toNat) (hcaplen : 38 ≤ f.bytes.length) :
    ∃ rest, handleIp f =
      if f.ShortOctets 26 ∧ f.ShortOctets 30 then .ok (.tuple (f.at 23).toNat (f.dotted 26)
        (f.dotted 30) (f.bigEndian 34) (f.bigEndian 36) :: rest)
      else .error .temp := by
  unfold handleIp
  dsimp only
  rw [if_neg ((length_ge_iff (by omega)).mpr hlen), Frame.readShort_eq (by omega),
    Frame.read_eq (by omega), Frame.readInt_eq (by omega), Frame.read_eq (by omega),
    Frame.readInt_eq (by omega), Frame.readShort_eq (by omega), Frame.readShort_eq (by omega)]
  simp only [ok_bind, toStringIP_frame, big2small_at, ite_bind_ite]
  by_cases hversion : (f.at 14 &&& 0xf0#8) >>> 4 ≠ 4#8
  case pos =>
    simp only [if_pos hversion]
    exact ⟨_, rfl⟩
  simp only [if_neg hversion]
  exact ⟨_, rfl⟩

theorem myCallback_eq (hcaplen : 14 ≤ f.bytes.length) :
    if f.bigEndian 12 = 0x0800 then myCallback f = handleIp f
    else ∃ lines, myCallback f = .ok lines := by
  have htype : f.at 12 ++ f.at 13 = 0x0800#16 ↔ f.bigEndian 12 = 0x0800 := by
    rw [← BitVec.toNat_inj, toNat_append_byte]
    rfl
  have hethernet : ∃ lines, handleEthernet f = .ok (lines, f.at 12 ++ f.at 13) ∧
      (f.at 12 ++ f.at 13 = 0x0800#16 → lines = []) := by
    rw [handleEthernet, if_neg (by omega), Frame.readShort_eq (by omega), ok_bind, ntohs_append]
    dsimp only
    by_cases hip : f.at 12 ++ f.at 13 = 0x0800#16
    case pos => exact ⟨[], if_pos hip, fun _ => rfl⟩
    rw [if_neg hip]
    split_ifs
    all_goals exact ⟨_, rfl, fun h => absurd h hip⟩
  obtain ⟨lines, hlines, hempty⟩ := hethernet
  rw [myCallback, hlines, ok_bind]
  dsimp only
  split
  next hip =>
    obtain rfl := hempty (htype.mpr hip)
    rw [if_pos (htype.mpr hip)]
    cases handleIp f with
    | error e => rfl
    | ok lines => rfl
  next hip =>
    rw [if_neg fun h => hip (htype.mp h)]
    exact ⟨lines, rfl⟩

theorem Ipv4Frame.myCallback_eq (h : Ipv4Frame f ihl) : myCallback f = handleIp f := by
  have hlength := h.length_ge
  have hcallback := FiveTuple.myCallback_eq (f := f) (by omega)
  rwa [if_pos h.etherType] at hcallback

/-- The program prints the five tuple exactly when the addresses have a text and the words
behind a header of five words are those behind the header. -/
theorem printsTuple_iff (h : Ipv4Frame f ihl) :
    PrintsTuple f ihl ↔ (f.ShortOctets 26 ∧ f.ShortOctets 30) ∧
      f.bigEndian 34 = f.bigEndian (14 + 4 * ihl) ∧
      f.bigEndian 36 = f.bigEndian (14 + 4 * ihl + 2) := by
  have hlength := h.length_ge
  obtain ⟨rest, hhandle⟩ := handleIp_eq (h.captured ▸ (by omega)) hlength
  rw [PrintsTuple, h.myCallback_eq, hhandle]
  by_cases hshort : f.ShortOctets 26 ∧ f.ShortOctets 30
  case neg => simp [hshort]
  simp [hshort]

def frameSample (vhl : BitVec 8) (options : List (BitVec 8)) : Frame :=
  let bytes := List.replicate 12 0x02#8 ++ [0x08#8, 0x00#8, vhl, 0x00#8, 0x00#8, 0x20#8, 0x00#8,
    0x01#8, 0x00#8, 0x00#8, 0x40#8, 0x11#8, 0x00#8, 0x00#8, 10#8, 0#8, 0#8, 1#8, 10#8, 0#8, 0#8,
    2#8] ++ options ++ [0x04#8, 0x00#8, 0x00#8, 0x35#8, 0x00#8, 0x08#8, 0x00#8, 0x00#8]
  ⟨bytes, BitVec.ofNat 32 bytes.length⟩

theorem printsTuple_iff_sample : PrintsTuple (frameSample 0x45#8 []) 5 := by
  have h : Ipv4Frame (frameSample 0x45#8 []) 5 := by
    constructor <;> decide
  exact (printsTuple_iff h).mpr (by decide +kernel)

def optionSample : Frame := frameSample 0x46#8 [0x01#8, 0x01#8, 0x01#8, 0x00#8]

theorem optionSample_ipv4 : Ipv4Frame optionSample 6 where
  captured := by decide
  etherType := by decide
  version := by decide
  five_le := by decide
  le_fifteen := by decide
  offset := by decide
  protocol := by decide
  ports := by decide

/-- The options are printed as the ports. -/
theorem options_as_ports : Ipv4Frame optionSample 6 ∧ ¬PrintsTuple optionSample 6 := by
  refine ⟨optionSample_ipv4, ?_⟩
  rintro ⟨rest, hprints⟩
  have hline : myCallback optionSample = .ok [.tuple 17 ['1', '0', '.', '0', '.', '0', '.', '1']
      ['1', '0', '.', '0', '.', '0', '.', '2'] 257 256] := by
    decide +kernel
  rw [hline] at hprints
  have hports : (257 : ℕ) = optionSample.bigEndian (14 + 4 * 6) := by
    injection hprints with hlines
    injection hlines with htuple
    injection htuple
  exact absurd hports (by decide)

end MeasurementLimiter.FiveTuple
