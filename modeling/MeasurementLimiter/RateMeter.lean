import MeasurementLimiter.RateRatio

namespace MeasurementLimiter.MeasureRate

open Runs

/-- `PACKET_HEADER`, the bytes of a packet that are not counted. -/
def packetHeader : ℤ := 28

/-- A captured packet: `pkthdr->len`, `ip_vhl` and `ip_len` of its IP header, the latter in
the byte order of the host, and the time in milliseconds at which it is handled. -/
structure Capture where
  len : BitVec 32
  ipVhl : BitVec 8
  ipLen : BitVec 16
  now : ℤ
  deriving DecidableEq

inductive Line
  | truncatedIp (length : ℕ)
  | unknownVersion (version : ℕ)
  | badHlen (hlen : ℕ)
  | bytesMissing (bytes : ℕ)
  | rate (smooth : ℚ)
  | total (bytes : ℤ)
  deriving DecidableEq

/-- What `handle_IP` checks of a packet that is not truncated: the lines it prints, and `len` if
the packet is handled. -/
def ipChecks (length : BitVec 32) (ipVhl : BitVec 8) (len : ℕ) : List Line × Option ℕ :=
  let hlen := ipVhl &&& 0x0f#8
  let version := (ipVhl &&& 0xf0#8) >>> 4
  if version ≠ 4#8 then ([.unknownVersion version.toNat], none)
  else
    let bad := if hlen < 5#8 then [.badHlen hlen.toNat] else []
    let missing := if length.toNat < len then [.bytesMissing (len - length.toNat)] else []
    (bad ++ missing, some len)

def ipHeader (p : Capture) : List Line × Option ℕ :=
  let length := p.len - 14#32
  if length < 20#32 then ([.truncatedIp length.toNat], none)
  else ipChecks length p.ipVhl p.ipLen.toNat

def ipLens (l : List Capture) : List ℕ := l.filterMap fun p => (ipHeader p).2

/-- `ratio`, in megabits for each second. -/
def rate (interval bytes : ℤ) : ℚ := bytes / interval * 8 / 1000

/-- A rate goes behind the others, and the oldest leaves a full queue. -/
def pushRate (q : List ℚ) (ratio : ℚ) : List ℚ :=
  if q.length < queueSize then q ++ [ratio] else q.tail ++ [ratio]

def lastRates (n : ℕ) (l : List ℚ) : List ℚ := l.drop (l.length - n)

/-- The globals of the program, and a record of what it did: the bytes behind each printed
rate with the rate before it is smoothed, and the bytes that were cleared unprinted. -/
structure Speed where
  start : ℤ
  nxtEnd : ℤ
  lastTime : ℤ
  totIppktLen : ℤ
  totPacket : ℤ
  q : List ℚ
  reported : List (ℤ × ℚ)
  cleared : List ℤ
  deriving DecidableEq

def Speed.new : Speed := ⟨-1, -1, -1, 0, 0, [], [], []⟩

def Speed.openFirst (interval now : ℤ) (s : Speed) : Speed :=
  if s.start = -1 then { s with start := now, nxtEnd := now + interval } else s

/-- A packet that comes late, `twice` being `2*interval`, opens a window of its own. -/
def Speed.openLate (twice interval now : ℤ) (s : Speed) : Speed :=
  if twice ≤ now - s.start then
    { s with
      start := now, nxtEnd := now + interval, totIppktLen := 0
      cleared := s.cleared ++ [s.totIppktLen] }
  else s

/-- The window that a packet finds open. -/
def Speed.openWindow (twice interval now : ℤ) (s : Speed) : Speed :=
  { (s.openFirst interval now).openLate twice interval now with lastTime := now }

/-- A packet behind the end of the window has its rate printed, and one window closes, also where
more than one has passed. -/
def Speed.closeWindow (interval now : ℤ) (s : Speed) : Except RateFault (List Line × Speed) :=
  if s.nxtEnd ≤ now then
    let ratio := rate interval s.totIppktLen
    let q := pushRate s.q ratio
    match getRatio q with
    | .error e => .error e
    | .ok smooth =>
      .ok ([.rate smooth], { s with
        start := s.start + interval, nxtEnd := s.nxtEnd + interval, totIppktLen := 0, q := q
        reported := s.reported ++ [(s.totIppktLen, ratio)] })
  else .ok ([], s)

/-- A packet of `len` bytes is counted, in two integers of type `int`. -/
def Speed.count (len : ℕ) (s : Speed) : Except RateFault Speed := do
  let totIppktLen ← IntRange.int32.keep (s.totIppktLen + (len - packetHeader))
  let totPacket ← IntRange.int32.keep (s.totPacket + 1)
  return { s with totIppktLen, totPacket }

/-- `handle_IP` of `speed.cpp`, and of `speed2file.cpp`, which prints the rate to a file.
`2*interval` is an `int`. -/
def handleIp (interval : ℤ) (s : Speed) (p : Capture) : Except RateFault (List Line × Speed) :=
  match (ipHeader p).2 with
  | none => .ok ((ipHeader p).1, s)
  | some len => do
    let twice ← IntRange.int32.keep (2 * interval)
    let (lines, s) ← (s.openWindow twice interval p.now).closeWindow interval p.now
    let s ← s.count len
    return ((ipHeader p).1 ++ lines, s)

/-- The bytes of the packets that are handled, each without its header. -/
def countedBytes (l : List Capture) : ℤ :=
  ((ipLens l).map fun len : ℕ => (len : ℤ) - packetHeader).sum

/-- All bytes that were counted: printed, pending or cleared. -/
def Speed.bytes (s : Speed) : ℤ :=
  (s.reported.map Prod.fst).sum + s.totIppktLen + s.cleared.sum

/-- The bytes to which those of a packet are added: none, if it is behind the end of the open
window. -/
def Speed.pendingAt (interval now : ℤ) (s : Speed) : ℤ :=
  if s.start ≠ -1 ∧ (2 * interval ≤ now - s.start ∨ s.nxtEnd ≤ now) then 0 else s.totIppktLen

/-- The integers of the program have room for a packet. -/
def Speed.Room (interval : ℤ) (s : Speed) (p : Capture) : Prop :=
  ∀ len ∈ (ipHeader p).2, IntRange.int32.Holds (2 * interval) ∧
    IntRange.int32.Holds (s.pendingAt interval p.now + (len - packetHeader)) ∧
    IntRange.int32.Holds (s.totPacket + 1)

instance (interval : ℤ) (s : Speed) (p : Capture) : Decidable (s.Room interval p) :=
  inferInstanceAs (Decidable (∀ len ∈ (ipHeader p).2, _))

variable {interval now : ℤ} {s s' : Speed} {p : Capture} {len : ℕ} {lines : List Line}

theorem pushRate_ne_nil (q : List ℚ) (ratio : ℚ) : pushRate q ratio ≠ [] := by
  unfold pushRate
  split_ifs <;> exact List.append_ne_nil_of_right_ne_nil _ (List.cons_ne_nil _ _)

theorem pushRate_lastRates (l : List ℚ) (ratio : ℚ) :
    pushRate (lastRates queueSize l) ratio = lastRates queueSize (l ++ [ratio]) := by
  unfold pushRate lastRates
  rw [List.length_drop, List.length_append, List.length_singleton]
  split_ifs with hshort
  · rw [List.drop_append_of_le_length (by omega)]
    congr 2
    unfold queueSize at hshort ⊢
    omega
  · rw [List.drop_append_of_le_length (by unfold queueSize; omega), List.tail_drop]
    congr 2
    unfold queueSize at hshort ⊢
    omega

/-- The state after the window of `s` was closed. -/
def Speed.next (interval : ℤ) (s : Speed) : Speed :=
  { s with
    start := s.start + interval, nxtEnd := s.nxtEnd + interval, totIppktLen := 0
    q := pushRate s.q (rate interval s.totIppktLen)
    reported := s.reported ++ [(s.totIppktLen, rate interval s.totIppktLen)] }

/-- The window in which a packet is counted. -/
def Speed.window (interval now : ℤ) (s : Speed) : Speed :=
  let w := s.openWindow (2 * interval) interval now
  if w.nxtEnd ≤ now then w.next interval else w

def Speed.counted (len : ℕ) (s : Speed) : Speed :=
  { s with totIppktLen := s.totIppktLen + (len - packetHeader), totPacket := s.totPacket + 1 }

theorem Speed.closeWindow_ok (interval now : ℤ) (s : Speed) :
    ∃ lines, s.closeWindow interval now =
      .ok (lines, if s.nxtEnd ≤ now then s.next interval else s) := by
  unfold Speed.closeWindow
  split_ifs
  · obtain ⟨smooth, hsmooth⟩ := getRatio_ok (pushRate_ne_nil s.q (rate interval s.totIppktLen))
    simp only [hsmooth]
    exact ⟨_, rfl⟩
  · exact ⟨_, rfl⟩

theorem Speed.count_eq_ok : s.count len = .ok s' ↔
    (IntRange.int32.Holds (s.totIppktLen + (len - packetHeader)) ∧
      IntRange.int32.Holds (s.totPacket + 1)) ∧ s' = s.counted len := by
  simp only [Speed.count, bind_eq_ok, IntRange.keep_eq_ok]
  constructor
  · rintro ⟨_, ⟨hbytes, rfl⟩, _, ⟨hpacket, rfl⟩, hs⟩
    exact ⟨⟨hbytes, hpacket⟩, (Except.ok.inj hs).symm⟩
  · rintro ⟨⟨hbytes, hpacket⟩, rfl⟩
    exact ⟨_, ⟨hbytes, rfl⟩, _, ⟨hpacket, rfl⟩, rfl⟩

/-- The first handled packet opens the window, one that comes late opens another, and any other
finds the window as it is. -/
theorem Speed.openWindow_first (hpos : 0 < interval) (now : ℤ) (h : s.start = -1) :
    s.openWindow (2 * interval) interval now =
      { s with start := now, nxtEnd := now + interval, lastTime := now } := by
  have hlate : ¬2 * interval ≤ now - now := by omega
  unfold Speed.openWindow Speed.openFirst
  rw [if_pos h, Speed.openLate, if_neg hlate]

theorem Speed.openWindow_late (h : s.start ≠ -1) (hlate : 2 * interval ≤ now - s.start) :
    s.openWindow (2 * interval) interval now = { s with
      start := now, nxtEnd := now + interval, lastTime := now, totIppktLen := 0
      cleared := s.cleared ++ [s.totIppktLen] } := by
  unfold Speed.openWindow Speed.openFirst
  rw [if_neg h, Speed.openLate, if_pos hlate]

theorem Speed.openWindow_same (h : s.start ≠ -1) (hlate : ¬2 * interval ≤ now - s.start) :
    s.openWindow (2 * interval) interval now = { s with lastTime := now } := by
  unfold Speed.openWindow Speed.openFirst
  rw [if_neg h, Speed.openLate, if_neg hlate]

theorem Speed.window_pending (hpos : 0 < interval) (now : ℤ) (s : Speed) :
    (s.window interval now).totIppktLen = s.pendingAt interval now := by
  have hend : ¬now + interval ≤ now := by omega
  unfold Speed.window Speed.pendingAt
  by_cases hfirst : s.start = -1
  case pos =>
    rw [Speed.openWindow_first hpos now hfirst]
    dsimp only
    rw [if_neg hend, if_neg fun h => h.1 hfirst]
  by_cases hlate : 2 * interval ≤ now - s.start
  case pos =>
    rw [Speed.openWindow_late hfirst hlate]
    dsimp only
    rw [if_neg hend, if_pos ⟨hfirst, .inl hlate⟩]
  rw [Speed.openWindow_same hfirst hlate]
  dsimp only
  by_cases hclose : s.nxtEnd ≤ now
  · rw [if_pos hclose, if_pos ⟨hfirst, .inr hclose⟩]
    rfl
  · rw [if_neg hclose, if_neg fun h => h.2.elim hlate hclose]

theorem Speed.window_totPacket (interval now : ℤ) (s : Speed) :
    (s.window interval now).totPacket = s.totPacket := by
  unfold Speed.window Speed.openWindow Speed.openLate Speed.openFirst
  dsimp only
  split_ifs <;> rfl

/-- What a call does: it leaves a packet that is not handled, and counts any other in its window,
if its integers have room. -/
theorem handleIp_eq_ok (hpos : 0 < interval) : handleIp interval s p = .ok (lines, s') →
    s.Room interval p ∧ (((ipHeader p).2 = none ∧ s' = s) ∨
      ∃ len, (ipHeader p).2 = some len ∧ s' = (s.window interval p.now).counted len) := by
  intro h
  unfold handleIp at h
  cases hlen : (ipHeader p).2 with
  | none =>
    simp only [hlen, Except.ok.injEq, Prod.mk.injEq] at h
    exact ⟨fun len hmem => by simp [hlen] at hmem, .inl ⟨rfl, h.2.symm⟩⟩
  | some len =>
    obtain ⟨closed, hclosed⟩ :=
      (s.openWindow (2 * interval) interval p.now).closeWindow_ok interval p.now
    simp only [hlen, bind_eq_ok, IntRange.keep_eq_ok] at h
    obtain ⟨_, ⟨htwice, rfl⟩, ⟨_, w⟩, hw, s₁, hcount, hs⟩ := h
    rw [hclosed] at hw
    obtain ⟨rfl, rfl⟩ := Prod.mk.inj (Except.ok.inj hw)
    obtain ⟨⟨hbytes, hpacket⟩, rfl⟩ := Speed.count_eq_ok.mp hcount
    obtain ⟨-, rfl⟩ := Prod.mk.inj (Except.ok.inj hs)
    change IntRange.int32.Holds ((s.window interval p.now).totIppktLen + _) at hbytes
    change IntRange.int32.Holds ((s.window interval p.now).totPacket + 1) at hpacket
    rw [Speed.window_pending hpos] at hbytes
    rw [Speed.window_totPacket] at hpacket
    refine ⟨fun len' hmem => ?_, .inr ⟨len, rfl, rfl⟩⟩
    obtain rfl : len = len' := Option.some.inj (hlen.symm.trans hmem)
    exact ⟨htwice, hbytes, hpacket⟩

theorem handleIp_ok (hpos : 0 < interval) (h : s.Room interval p) :
    ∃ lines s', handleIp interval s p = .ok (lines, s') := by
  unfold handleIp
  cases hlen : (ipHeader p).2 with
  | none => exact ⟨_, _, rfl⟩
  | some len =>
    obtain ⟨htwice, hbytes, hpacket⟩ := h len hlen
    obtain ⟨closed, hclosed⟩ :=
      (s.openWindow (2 * interval) interval p.now).closeWindow_ok interval p.now
    have hcount : (s.window interval p.now).count len =
        .ok ((s.window interval p.now).counted len) := by
      rw [Speed.count_eq_ok, Speed.window_pending hpos, Speed.window_totPacket]
      exact ⟨⟨hbytes, hpacket⟩, rfl⟩
    change (if _ then _ else _ : Speed).count len = _ at hcount
    dsimp only
    rw [IntRange.keep_of_holds htwice, ok_bind, hclosed, ok_bind]
    dsimp only
    rw [hcount]
    exact ⟨_, _, rfl⟩

theorem handleIp_returns_iff (hpos : 0 < interval) :
    (∃ r, handleIp interval s p = .ok r) ↔ s.Room interval p := by
  constructor
  · rintro ⟨⟨lines, s'⟩, h⟩
    exact (handleIp_eq_ok hpos h).1
  · intro h
    obtain ⟨lines, s', hs⟩ := handleIp_ok hpos h
    exact ⟨_, hs⟩

theorem version_iff (vhl : BitVec 8) : (vhl &&& 0xf0#8) >>> 4 = 4#8 ↔ vhl.toNat / 16 = 4 := by
  revert vhl
  decide

theorem ipChecks_len (length : BitVec 32) (vhl : BitVec 8) (len : ℕ) :
    (ipChecks length vhl len).2 = if vhl.toNat / 16 = 4 then some len else none := by
  unfold ipChecks
  dsimp only
  by_cases hversion : (vhl &&& 0xf0#8) >>> 4 = 4#8
  · rw [if_neg (not_not.mpr hversion), if_pos ((version_iff vhl).mp hversion)]
  · rw [if_pos hversion, if_neg fun h => hversion ((version_iff vhl).mpr h)]

theorem countedBytes_append (l l' : List Capture) :
    countedBytes (l ++ l') = countedBytes l + countedBytes l' := by
  simp only [countedBytes, ipLens, List.filterMap_append, List.map_append, List.sum_append]

theorem ipLens_none (h : (ipHeader p).2 = none) : ipLens [p] = [] :=
  List.filterMap_cons_none (f := fun p => (ipHeader p).2) h

theorem ipLens_some (h : (ipHeader p).2 = some len) : ipLens [p] = [len] :=
  List.filterMap_cons_some (f := fun p => (ipHeader p).2) h

theorem countedBytes_none (h : (ipHeader p).2 = none) : countedBytes [p] = 0 := by
  rw [countedBytes, ipLens_none h]
  rfl

theorem countedBytes_some (h : (ipHeader p).2 = some len) :
    countedBytes [p] = len - packetHeader := by
  rw [countedBytes, ipLens_some h, List.map_singleton, List.sum_singleton]

theorem Speed.window_bytes (interval now : ℤ) (s : Speed) :
    (s.window interval now).bytes = s.bytes := by
  have hopen : (s.openWindow (2 * interval) interval now).bytes = s.bytes := by
    unfold Speed.openWindow Speed.openLate Speed.openFirst Speed.bytes
    split_ifs
    · simp only [List.sum_append, List.sum_singleton]
      ring
    · rfl
    · simp only [List.sum_append, List.sum_singleton]
      ring
    · rfl
  rw [← hopen]
  unfold Speed.window
  dsimp only
  split_ifs
  · simp only [Speed.bytes, Speed.next, List.map_append, List.map_cons, List.map_nil,
      List.sum_append, List.sum_singleton]
    ring
  · rfl

theorem handleIp_bytes (hpos : 0 < interval) (h : handleIp interval s p = .ok (lines, s')) :
    s'.bytes = s.bytes + countedBytes [p] := by
  rcases (handleIp_eq_ok hpos h).2 with ⟨hlen, rfl⟩ | ⟨len, hlen, rfl⟩
  · rw [countedBytes_none hlen, add_zero]
  · rw [countedBytes_some hlen, ← Speed.window_bytes interval p.now s]
    unfold Speed.bytes Speed.counted
    ring

/-- After every run the bytes of all packets were printed, are pending, or were pending when a
packet came two windows or more after the start of the open one.  The next call faults only where
its integers have no room. -/
theorem bytes_accounted (hpos : 0 < interval) {h : List (Capture × List Line)}
    (run : Run (handleIp interval) Speed.new h s) :
    (s.reported.map Prod.fst).sum + s.totIppktLen + s.cleared.sum = countedBytes (h.map Prod.fst) ∧
      ∀ p, (∃ r, handleIp interval s p = .ok r) ↔ s.Room interval p := by
  refine ⟨?_, fun p => handleIp_returns_iff hpos⟩
  refine run.invariant (I := fun h s => s.bytes = countedBytes (h.map Prod.fst)) rfl ?_
  intro h s p lines s' hI _ hs
  rw [handleIp_bytes hpos hs, hI, List.map_append, countedBytes_append]
  rfl

def idleSample : List Capture := [⟨142#32, 0x45#8, 128#16, 0⟩, ⟨142#32, 0x45#8, 128#16, 2000⟩]

def idleState : Speed := ⟨2000, 3000, 2000, 100, 2, [], [], [100]⟩

theorem idle_run : Run (handleIp 1000) Speed.new (idleSample.map fun p => (p, [])) idleState := by
  have hexec : exec (handleIp 1000) Speed.new idleSample =
      .ok (idleSample.map fun p => (p, []), idleState) := by rfl
  exact run_of_exec hexec

theorem bytes_accounted_sample :
    (idleState.reported.map Prod.fst).sum + idleState.totIppktLen + idleState.cleared.sum =
        countedBytes ((idleSample.map fun p => (p, ([] : List Line))).map Prod.fst) ∧
      ∃ r, handleIp 1000 idleState ⟨142#32, 0x45#8, 128#16, 3000⟩ = .ok r := by
  have hall := bytes_accounted (by decide) idle_run
  exact ⟨hall.1, (hall.2 _).mpr (by decide)⟩

/-- The bytes of the first packet are not printed. -/
theorem idle_gap_clears :
    ∃ h s, Run (handleIp 1000) Speed.new h s ∧ h.map Prod.fst = idleSample ∧
      (idleSample.map Capture.now).Pairwise (· ≤ ·) ∧
      (s.reported.map Prod.fst).sum + s.totIppktLen ≠ countedBytes idleSample :=
  ⟨_, _, idle_run, rfl, by decide, by decide⟩

end MeasurementLimiter.MeasureRate
