import MeasurementLimiter.Runs

namespace MeasurementLimiter.MeasureRate

/-- `big2small`: of the sixteen binary digits, the high eight go before the low eight. -/
def big2small (x : BitVec 16) : ℕ :=
  let q := Nat.digits 2 x.toNat
  let q := q ++ List.replicate (16 - q.length) 0
  Nat.ofDigits 2 (q.drop 8 ++ q.take 8)

example : big2small 0x1234#16 = 0x3412 := by decide

theorem big2small_eq (x : BitVec 16) : big2small x = x.toNat / 256 + 256 * (x.toNat % 256) := by
  have hx : x.toNat < 2 ^ 16 := x.isLt
  have hlen : (Nat.digits 2 x.toNat).length ≤ 16 := (Nat.digits_length_le_iff (by norm_num) _).mpr hx
  have hlt : ∀ d ∈ Nat.digits 2 x.toNat ++ List.replicate (16 - (Nat.digits 2 x.toNat).length) 0,
      d < 2 := by
    intro d hd
    rcases List.mem_append.mp hd with hd | hd
    · exact Nat.digits_lt_base (by norm_num) hd
    · rw [List.eq_of_mem_replicate hd]
      norm_num
  have hvalue : Nat.ofDigits 2 (Nat.digits 2 x.toNat ++
      List.replicate (16 - (Nat.digits 2 x.toNat).length) 0) = x.toNat := by
    rw [Nat.ofDigits_append_replicate_zero, Nat.ofDigits_digits]
  have hhigh := Nat.ofDigits_div_pow_eq_ofDigits_drop 8 (by norm_num) _ hlt
  have hlow := Nat.ofDigits_mod_pow_eq_ofDigits_take 8 (by norm_num) _ hlt
  rw [hvalue] at hhigh hlow
  have hdrop : (List.drop 8 (Nat.digits 2 x.toNat ++
      List.replicate (16 - (Nat.digits 2 x.toNat).length) 0)).length = 8 := by
    rw [List.length_drop, List.length_append, List.length_replicate]
    omega
  unfold big2small
  dsimp only
  rw [Nat.ofDigits_append, hdrop, ← hhigh, ← hlow]
  norm_num

end MeasurementLimiter.MeasureRate

namespace MeasurementLimiter.FiveTuple

open MeasureRate Runs

/-- What `pcap` hands over: the captured bytes, `caplen` in number, and the length that the
frame had. -/
structure Frame where
  bytes : List (BitVec 8)
  len : BitVec 32
  deriving DecidableEq

/-- Why a call does more than it may: it reads behind the captured bytes, or it writes past
the array `temp` or the memory of `stringIP`. -/
inductive TupleFault
  | read
  | temp
  | stringIP
  deriving DecidableEq

def Frame.read (f : Frame) (i : ℕ) : Except TupleFault (BitVec 8) :=
  match f.bytes[i]? with
  | none => .error .read
  | some b => .ok b

def Frame.readShort (f : Frame) (i : ℕ) : Except TupleFault (BitVec 16) := do
  let b₀ ← f.read i
  let b₁ ← f.read (i + 1)
  return b₁ ++ b₀

def Frame.readInt (f : Frame) (i : ℕ) : Except TupleFault (BitVec 32) := do
  let w₀ ← f.readShort i
  let w₁ ← f.readShort (i + 2)
  return w₁ ++ w₀

def ntohs (x : BitVec 16) : BitVec 16 := x.setWidth 8 ++ (x >>> 8).setWidth 8

/-- `sprintf` into `temp`, which has four characters, one of them for the NUL. -/
def sprintfTemp (text : List Char) : Except TupleFault (List Char) :=
  if text.length < 4 then .ok text else .error .temp

/-- `strcat` on `stringIP`, which has sixteen. -/
def strcatIP (stringIP temp : List Char) : Except TupleFault (List Char) :=
  if stringIP.length + temp.length < 16 then .ok (stringIP ++ temp) else .error .stringIP

def decimal (b : BitVec 8) : List Char := Nat.toDigits 10 b.toNat

/-- The loop of `toStringIP` for `n` more numbers, with the rest of the address. -/
def toStringIPLoop : ℕ → BitVec 32 → List Char → Except TupleFault (BitVec 32 × List Char)
  | 0, tempIP, stringIP => .ok (tempIP, stringIP)
  | n + 1, tempIP, stringIP => do
    let temp ← sprintfTemp (decimal (tempIP.setWidth 8) ++ ['.'])
    let stringIP ← strcatIP stringIP temp
    toStringIPLoop n (tempIP >>> 8) stringIP

def toStringIP (ip : BitVec 32) : Except TupleFault (List Char) := do
  let (tempIP, stringIP) ← toStringIPLoop 3 ip []
  let temp ← sprintfTemp (decimal (tempIP.setWidth 8))
  strcatIP stringIP temp

def Frame.at (f : Frame) (i : ℕ) : BitVec 8 := f.bytes.getD i 0#8

/-- A number of two bytes, the high one first. -/
def Frame.bigEndian (f : Frame) (i : ℕ) : ℕ := 256 * (f.at i).toNat + (f.at (i + 1)).toNat

def Frame.dotted (f : Frame) (i : ℕ) : List Char :=
  ['.'].intercalate [decimal (f.at i), decimal (f.at (i + 1)), decimal (f.at (i + 2)),
    decimal (f.at (i + 3))]

def Frame.ihl (f : Frame) : ℕ := (f.at 14).toNat % 16

def Frame.ports (f : Frame) : ℕ × ℕ :=
  (f.bigEndian (14 + 4 * f.ihl), f.bigEndian (14 + 4 * f.ihl + 2))

/-- The words behind an IP header of five words. -/
def Frame.portWords (f : Frame) : ℕ × ℕ := (f.bigEndian 34, f.bigEndian 36)

/-- A fully captured frame with an IPv4 packet of TCP or UDP, whose header has `ihl` words, is no
later fragment and has four bytes behind it. -/
@[mk_iff] structure Ipv4Frame (f : Frame) (ihl : ℕ) : Prop where
  captured : f.len.toNat = f.bytes.length
  etherType : f.bigEndian 12 = 0x0800
  version : (f.at 14).toNat = 16 * 4 + ihl
  five_le : 5 ≤ ihl
  le_fifteen : ihl ≤ 15
  offset : f.bigEndian 20 % 2 ^ 13 = 0
  protocol : (f.at 23).toNat = 6 ∨ (f.at 23).toNat = 17
  ports : 14 + 4 * ihl + 4 ≤ f.bytes.length

instance (f : Frame) (ihl : ℕ) : Decidable (Ipv4Frame f ihl) :=
  decidable_of_iff _ (ipv4Frame_iff f ihl).symm

variable {f : Frame} {i ihl : ℕ}

theorem toNat_append_byte {w : ℕ} (x : BitVec w) (y : BitVec 8) :
    (x ++ y).toNat = 256 * x.toNat + y.toNat := by
  rw [BitVec.toNat_append, ← Nat.shiftLeft_add_eq_or_of_lt y.isLt, Nat.shiftLeft_eq]
  ring

theorem ntohs_append (high low : BitVec 8) : ntohs (high ++ low) = low ++ high := by
  have hlow := low.isLt
  have hhigh := high.isLt
  apply BitVec.eq_of_toNat_eq
  rw [ntohs, toNat_append_byte, toNat_append_byte, BitVec.toNat_setWidth, BitVec.toNat_setWidth,
    BitVec.toNat_ushiftRight, toNat_append_byte, Nat.shiftRight_eq_div_pow]
  omega

theorem big2small_append (high low : BitVec 8) :
    big2small (high ++ low) = 256 * low.toNat + high.toNat := by
  have hlow := low.isLt
  rw [big2small_eq, toNat_append_byte]
  omega

def word (a b c d : BitVec 8) : BitVec 32 := (d ++ c) ++ (b ++ a)

theorem toNat_word (a b c d : BitVec 8) : (word a b c d).toNat =
    a.toNat + 256 * (b.toNat + 256 * (c.toNat + 256 * d.toNat)) := by
  have ha := a.isLt
  have hb := b.isLt
  rw [word, BitVec.toNat_append,
    ← Nat.shiftLeft_add_eq_or_of_lt (by rw [toNat_append_byte]; omega), Nat.shiftLeft_eq,
    toNat_append_byte, toNat_append_byte]
  ring

@[simp] theorem setWidth_word (a b c d : BitVec 8) : (word a b c d).setWidth 8 = a := by
  have ha := a.isLt
  apply BitVec.eq_of_toNat_eq
  rw [BitVec.toNat_setWidth, toNat_word]
  omega

@[simp] theorem word_shift (a b c d : BitVec 8) : word a b c d >>> 8 = word b c d 0#8 := by
  have ha := a.isLt
  apply BitVec.eq_of_toNat_eq
  rw [BitVec.toNat_ushiftRight, toNat_word, toNat_word, Nat.shiftRight_eq_div_pow,
    BitVec.toNat_zero]
  omega

theorem Frame.read_eq (h : i < f.bytes.length) : f.read i = .ok (f.at i) := by
  rw [Frame.read, Frame.at, List.getElem?_eq_getElem h, List.getD_eq_getElem _ _ h]

theorem Frame.readShort_eq (h : i + 1 < f.bytes.length) :
    f.readShort i = .ok (f.at (i + 1) ++ f.at i) := by
  rw [Frame.readShort, read_eq h, read_eq (by omega)]
  rfl

theorem Frame.readInt_eq (h : i + 3 < f.bytes.length) :
    f.readInt i = .ok (word (f.at i) (f.at (i + 1)) (f.at (i + 2)) (f.at (i + 3))) := by
  rw [Frame.readInt, readShort_eq h, readShort_eq (by omega)]
  rfl

/-- The test of `length` lets pass the frames with the shortest IP header, and those so short
that the difference wraps. -/
theorem length_ge_iff (h : 14 ≤ f.len.toNat) : ¬f.len - 14#32 < 20#32 ↔ 34 ≤ f.len.toNat := by
  rw [BitVec.lt_def, BitVec.toNat_sub_of_le (by rw [BitVec.le_def]; exact h)]
  simp
  omega

theorem decimal_length (b : BitVec 8) : (decimal b).length ≤ 3 :=
  (Nat.length_toDigits_le_iff (by norm_num) (by norm_num)).mpr (b.isLt.trans (by norm_num))

theorem decimal_short_iff (b : BitVec 8) : (decimal b).length ≤ 2 ↔ b.toNat < 100 :=
  Nat.length_toDigits_le_iff (by norm_num) (by norm_num)

theorem sprintfTemp_of_lt {text : List Char} (h : text.length < 4) :
    sprintfTemp text = .ok text :=
  if_pos h

theorem strcatIP_of_lt {stringIP temp : List Char} (h : stringIP.length + temp.length < 16) :
    strcatIP stringIP temp = .ok (stringIP ++ temp) :=
  if_pos h

theorem sprintfTemp_dot (b : BitVec 8) : sprintfTemp (decimal b ++ ['.']) =
    if b.toNat < 100 then .ok (decimal b ++ ['.']) else .error .temp := by
  have hiff : (decimal b ++ ['.']).length < 4 ↔ b.toNat < 100 := by
    rw [← decimal_short_iff, List.length_append, List.length_singleton]
    omega
  rw [sprintfTemp]
  exact if_congr hiff rfl rfl

theorem toStringIPLoop_word (n : ℕ) (a b c d : BitVec 8) {stringIP : List Char}
    (h : stringIP.length < 12) : toStringIPLoop (n + 1) (word a b c d) stringIP =
      if a.toNat < 100 then toStringIPLoop n (word b c d 0#8) (stringIP ++ (decimal a ++ ['.']))
      else .error .temp := by
  rw [toStringIPLoop, setWidth_word, word_shift, sprintfTemp_dot]
  split
  next ha =>
    have hlength := (decimal_short_iff a).mpr ha
    have hfits : stringIP.length + (decimal a ++ ['.']).length < 16 := by
      rw [List.length_append, List.length_singleton]
      omega
    change (strcatIP stringIP _ >>= toStringIPLoop n _) = _
    rw [strcatIP_of_lt hfits]
    rfl
  next => rfl

theorem toStringIP_word (a b c d : BitVec 8) : toStringIP (word a b c d) =
    if a.toNat < 100 ∧ b.toNat < 100 ∧ c.toNat < 100 then
      .ok (['.'].intercalate [decimal a, decimal b, decimal c, decimal d])
    else .error .temp := by
  have ha := decimal_short_iff a
  have hb := decimal_short_iff b
  have hc := decimal_short_iff c
  have hd := decimal_length d
  rw [toStringIP, toStringIPLoop_word _ _ _ _ _ (by decide)]
  by_cases ha' : a.toNat < 100
  case neg =>
    rw [if_neg ha', if_neg fun h => ha' h.1]
    rfl
  rw [if_pos ha', toStringIPLoop_word _ _ _ _ _ (by simp; omega)]
  by_cases hb' : b.toNat < 100
  case neg =>
    rw [if_neg hb', if_neg fun h => hb' h.2.1]
    rfl
  rw [if_pos hb', toStringIPLoop_word _ _ _ _ _ (by simp; omega)]
  by_cases hc' : c.toNat < 100
  case neg =>
    rw [if_neg hc', if_neg fun h => hc' h.2.2]
    rfl
  have hfits : ([] ++ (decimal a ++ ['.']) ++ (decimal b ++ ['.']) ++ (decimal c ++ ['.'])).length +
      (decimal d).length < 16 := by
    simp
    omega
  rw [if_pos hc', if_pos ⟨ha', hb', hc'⟩]
  change (sprintfTemp (decimal ((word d 0#8 0#8 0#8).setWidth 8)) >>= strcatIP _) = _
  rw [setWidth_word, sprintfTemp_of_lt (by omega)]
  exact (strcatIP_of_lt hfits).trans (by simp [List.intercalate])

/-- The first three numbers of the address at `i` have at most two digits. -/
def Frame.ShortOctets (f : Frame) (i : ℕ) : Prop :=
  (f.at i).toNat < 100 ∧ (f.at (i + 1)).toNat < 100 ∧ (f.at (i + 2)).toNat < 100

instance (f : Frame) (i : ℕ) : Decidable (f.ShortOctets i) :=
  inferInstanceAs (Decidable (_ ∧ _ ∧ _))

theorem toStringIP_frame (f : Frame) (i : ℕ) :
    toStringIP (word (f.at i) (f.at (i + 1)) (f.at (i + 2)) (f.at (i + 3))) =
      if f.ShortOctets i then .ok (f.dotted i) else .error .temp :=
  toStringIP_word ..

theorem big2small_at (f : Frame) (i : ℕ) : big2small (f.at (i + 1) ++ f.at i) = f.bigEndian i :=
  big2small_append ..

theorem Ipv4Frame.length_ge (h : Ipv4Frame f ihl) : 38 ≤ f.bytes.length := by
  have hports := h.ports
  have hwords := h.five_le
  omega

end MeasurementLimiter.FiveTuple
