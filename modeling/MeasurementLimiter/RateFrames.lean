import MeasurementLimiter.FiveTuple
import MeasurementLimiter.RateWindows

namespace MeasurementLimiter.MeasureRate

open Runs
open FiveTuple (Frame TupleFault TupleLine handleEthernet ntohs)

/-- A frame, with the time in milliseconds at which it is handled. -/
structure Arrival extends Frame where
  now : ℤ
  deriving DecidableEq

/-- Why a callback does more than it may. -/
inductive CallbackFault
  | read (e : TupleFault)
  | rate (e : RateFault)
  deriving DecidableEq

/-- What `handle_IP` reads: a packet whose `length` is too short is left before that. -/
def captureOf (f : Arrival) : Except TupleFault Capture :=
  if f.len - 14#32 < 20#32 then .ok ⟨f.len, 0#8, 0#16, f.now⟩
  else do
    let ipLen ← f.readShort 16
    let ipVhl ← f.read 14
    return ⟨f.len, ipVhl, ntohs ipLen, f.now⟩

/-- `my_callback`, with the lines of `handle_ethernet` and those of `handle_IP`. -/
def myCallback (interval : ℤ) (s : Speed) (f : Arrival) :
    Except CallbackFault ((List TupleLine × List Line) × Speed) :=
  match handleEthernet f.toFrame with
  | .error e => .error (.read e)
  | .ok (lines, type) =>
    if type = 0x0800#16 then
      match captureOf f with
      | .error e => .error (.read e)
      | .ok p =>
        match handleIp interval s p with
        | .error e => .error (.rate e)
        | .ok (ipLines, s) => .ok ((lines, ipLines), s)
    else .ok ((lines, []), s)

variable {interval : ℤ} {s s' : Speed} {f : Arrival}

/-- A frame with an IP packet that is not left at once. -/
def Arrival.Ip (f : Arrival) : Prop :=
  14 ≤ f.bytes.length ∧ f.bigEndian 12 = 0x0800 ∧ ¬f.len - 14#32 < 20#32

instance (f : Arrival) : Decidable f.Ip := inferInstanceAs (Decidable (_ ∧ _ ∧ _))

/-- The total length of such a packet was captured. -/
def Arrival.Readable (f : Arrival) : Prop := f.Ip → 18 ≤ f.bytes.length

instance (f : Arrival) : Decidable f.Readable := inferInstanceAs (Decidable (_ → _))

/-- The bytes that an IPv4 packet has behind its headers. -/
def Arrival.payload (f : Arrival) : ℤ :=
  if f.Ip ∧ (f.at 14).toNat / 16 = 4 then f.bigEndian 16 - packetHeader else 0

theorem handleEthernet_type (h : 14 ≤ f.bytes.length) :
    ∃ lines, handleEthernet f.toFrame = .ok (lines, f.at 12 ++ f.at 13) := by
  rw [handleEthernet, if_neg (by omega), Frame.readShort_eq (by omega), ok_bind,
    FiveTuple.ntohs_append]
  dsimp only
  split_ifs <;> exact ⟨_, rfl⟩

theorem type_ip_iff (f : Arrival) : f.at 12 ++ f.at 13 = 0x0800#16 ↔ f.bigEndian 12 = 0x0800 := by
  rw [← BitVec.toNat_inj, FiveTuple.toNat_append_byte]
  rfl

theorem captureOf_eq (hlen : ¬f.len - 14#32 < 20#32) (h : 18 ≤ f.bytes.length) :
    captureOf f = .ok ⟨f.len, f.at 14, f.at 16 ++ f.at 17, f.now⟩ := by
  rw [captureOf, if_neg hlen, Frame.readShort_eq (by omega), ok_bind, Frame.read_eq (by omega),
    ok_bind, FiveTuple.ntohs_append]
  rfl

theorem captureOf_unread (hlen : ¬f.len - 14#32 < 20#32) (h : f.bytes.length < 18) :
    captureOf f = .error .read := by
  have hread : ∀ i, f.bytes.length ≤ i → f.read i = .error .read := fun i hi => by
    rw [Frame.read, List.getElem?_eq_none hi]
  have hshort : f.readShort 16 = .error .read := by
    by_cases h16 : f.bytes.length ≤ 16
    · rw [Frame.readShort, hread 16 h16, error_bind]
    · rw [Frame.readShort, Frame.read_eq (by omega), ok_bind, hread (16 + 1) (by omega), error_bind]
  rw [captureOf, if_neg hlen, hshort, error_bind]

/-- The packet of a frame, as `handle_IP` sees it. -/
def Arrival.capture (f : Arrival) : Option Capture :=
  if 14 ≤ f.bytes.length ∧ f.bigEndian 12 = 0x0800 then (captureOf f).toOption else none

theorem countedBytes_capture (h : f.Readable) : countedBytes f.capture.toList = f.payload := by
  by_cases htype : 14 ≤ f.bytes.length ∧ f.bigEndian 12 = 0x0800
  case neg =>
    have hip : ¬(f.Ip ∧ (f.at 14).toNat / 16 = 4) := fun hip => htype ⟨hip.1.1, hip.1.2.1⟩
    rw [Arrival.capture, if_neg htype, Arrival.payload, if_neg hip]
    rfl
  rw [Arrival.capture, if_pos htype]
  by_cases hlen : f.len - 14#32 < 20#32
  case pos =>
    have hip : ¬(f.Ip ∧ (f.at 14).toNat / 16 = 4) := fun hip => hip.1.2.2 hlen
    rw [captureOf, if_pos hlen, Arrival.payload, if_neg hip]
    refine countedBytes_none ?_
    rw [ipHeader]
    exact congrArg Prod.snd (if_pos hlen)
  have hheader : (ipHeader ⟨f.len, f.at 14, f.at 16 ++ f.at 17, f.now⟩).2 =
      if (f.at 14).toNat / 16 = 4 then some (f.bigEndian 16) else none := by
    have htotal : (f.at 16 ++ f.at 17).toNat = f.bigEndian 16 := FiveTuple.toNat_append_byte _ _
    rw [ipHeader, ← htotal, ← ipChecks_len (f.len - 14#32)]
    exact congrArg Prod.snd (if_neg hlen)
  rw [captureOf_eq hlen (h ⟨htype.1, htype.2, hlen⟩), Arrival.payload]
  by_cases hversion : (f.at 14).toNat / 16 = 4
  · rw [if_pos ⟨⟨htype.1, htype.2, hlen⟩, hversion⟩]
    rw [if_pos hversion] at hheader
    exact countedBytes_some hheader
  · rw [if_neg fun hip => hversion hip.2]
    rw [if_neg hversion] at hheader
    exact countedBytes_none hheader

/-- A callback reads behind the captured bytes, or gives the packet of its frame to `handle_IP`,
if the frame has one. -/
theorem myCallback_cases (interval : ℤ) (s : Speed) (f : Arrival) :
    (¬f.Readable ∧ myCallback interval s f = .error (.read .read)) ∨
      f.Readable ∧ ((f.capture = none ∧ ∃ lines, myCallback interval s f = .ok ((lines, []), s)) ∨
        ∃ p lines, f.capture = some p ∧ myCallback interval s f =
          match handleIp interval s p with
          | .error e => .error (.rate e)
          | .ok (ipLines, s) => .ok ((lines, ipLines), s)) := by
  by_cases hcaplen : 14 ≤ f.bytes.length
  case neg =>
    have hethernet : handleEthernet f.toFrame = .ok ([.shortFrame], 0xffff#16) :=
      if_pos (not_le.mp hcaplen)
    refine .inr ⟨fun h => absurd h.1 hcaplen, .inl ⟨if_neg fun h => hcaplen h.1, ?_⟩⟩
    rw [myCallback, hethernet]
    exact ⟨_, rfl⟩
  obtain ⟨lines, hethernet⟩ := handleEthernet_type hcaplen
  rw [myCallback, hethernet]
  dsimp only
  by_cases htype : f.bigEndian 12 = 0x0800
  case neg =>
    refine .inr ⟨fun h => absurd h.2.1 htype, .inl ⟨if_neg fun h => htype h.2, lines, ?_⟩⟩
    rw [if_neg fun h => htype ((type_ip_iff f).mp h)]
  rw [if_pos ((type_ip_iff f).mpr htype)]
  by_cases hread : f.Readable
  case neg =>
    obtain ⟨hip, hshort⟩ := Classical.not_imp.mp hread
    rw [captureOf_unread hip.2.2 (not_le.mp hshort)]
    exact .inl ⟨hread, rfl⟩
  have hcapture : ∃ p, captureOf f = .ok p := by
    by_cases hlen : f.len - 14#32 < 20#32
    · exact ⟨_, if_pos hlen⟩
    · exact ⟨_, captureOf_eq hlen (hread ⟨hcaplen, htype, hlen⟩)⟩
  obtain ⟨p, hp⟩ := hcapture
  rw [hp]
  refine .inr ⟨hread, .inr ⟨p, lines, ?_, rfl⟩⟩
  rw [Arrival.capture, if_pos ⟨hcaplen, htype⟩, hp]
  rfl

/-- A callback returns if and only if its frame is readable and the integers of the program have
room for its packet. -/
theorem myCallback_returns_iff (hpos : 0 < interval) (s : Speed) (f : Arrival) :
    (∃ r, myCallback interval s f = .ok r) ↔ f.Readable ∧ ∀ p ∈ f.capture, s.Room interval p := by
  rcases myCallback_cases interval s f with ⟨hnot, hfault⟩ | ⟨hf, ⟨hnone, lines, hok⟩ |
    ⟨p, lines, hp, heq⟩⟩
  · simp [hfault, hnot]
  · simp [hok, hnone, hf]
  · have hreturns : (∃ r, myCallback interval s f = .ok r) ↔ ∃ r, handleIp interval s p = .ok r := by
      rw [heq]
      cases handleIp interval s p with
      | error e => simp
      | ok r => simp
    rw [hreturns, handleIp_returns_iff hpos, hp]
    simp [hf]

/-- What a run on frames has done so far: `handle_IP` has run on their packets. -/
structure Followed (interval : ℤ) (h : List (Arrival × (List TupleLine × List Line))) (s : Speed) :
    Prop where
  bytes : s.bytes = ((h.map Prod.fst).map Arrival.payload).sum
  packets : ∃ h', Run (handleIp interval) Speed.new h' s ∧
    h'.map Prod.fst = (h.map Prod.fst).filterMap Arrival.capture ∧
    h'.flatMap Prod.snd = h.flatMap fun e => e.2.2

variable {h : List (Arrival × (List TupleLine × List Line))}

theorem Followed.step (hpos : 0 < interval) (w : Followed interval h s)
    {o : List TupleLine × List Line} (heq : myCallback interval s f = .ok (o, s')) :
    Followed interval (h ++ [(f, o)]) s' := by
  obtain ⟨h', run, hpackets, hlines⟩ := w.packets
  have hcalls : (h ++ [(f, o)]).map Prod.fst = h.map Prod.fst ++ [f] := List.map_append
  rcases myCallback_cases interval s f with ⟨-, hfault⟩ | ⟨hf, ⟨hnone, lines, hok⟩ |
    ⟨p, lines, hp, hok⟩⟩
  · rw [hfault] at heq
    cases heq
  · rw [hok] at heq
    obtain ⟨rfl, rfl⟩ := Prod.mk.inj (Except.ok.inj heq)
    have hzero := countedBytes_capture hf
    rw [hnone] at hzero
    refine ⟨?_, h', run, ?_, ?_⟩
    · rw [hcalls, List.map_append, List.sum_append, ← w.bytes, List.map_singleton,
        List.sum_singleton, ← hzero]
      exact (add_zero _).symm
    · rw [hcalls, List.filterMap_append, List.filterMap_cons_none hnone, List.filterMap_nil,
        List.append_nil, hpackets]
    · rw [List.flatMap_append, List.flatMap_singleton, List.append_nil, hlines]
  · rw [hok] at heq
    cases hs : handleIp interval s p with
    | error e => simp [hs] at heq
    | ok r =>
      obtain ⟨ipLines, s₁⟩ := r
      simp only [hs, Except.ok.injEq, Prod.mk.injEq] at heq
      obtain ⟨rfl, rfl⟩ := heq
      have hcounted := countedBytes_capture hf
      rw [hp, Option.toList_some] at hcounted
      refine ⟨?_, h' ++ [(p, ipLines)], .snoc run trivial hs, ?_, ?_⟩
      · rw [hcalls, List.map_append, List.sum_append, ← w.bytes, List.map_singleton,
          List.sum_singleton, handleIp_bytes hpos hs, hcounted]
      · rw [hcalls, List.filterMap_append, List.filterMap_cons_some hp, List.filterMap_nil,
          List.map_append, hpackets]
        rfl
      · rw [List.flatMap_append, List.flatMap_append, hlines]
        rfl

/-- The program runs `handle_IP` on the packets of its frames, and the bytes that it has printed,
has pending or has cleared are those behind the headers of the IPv4 packets.  It goes on with
every frame that was captured up to its total length and for whose packet its integers have room,
and with no other. -/
theorem frames_accounted (hpos : 0 < interval) (run : Run (myCallback interval) Speed.new h s) :
    ((∃ h', Run (handleIp interval) Speed.new h' s ∧
        h'.map Prod.fst = (h.map Prod.fst).filterMap Arrival.capture ∧
        h'.flatMap Prod.snd = h.flatMap fun e => e.2.2) ∧
      (s.reported.map Prod.fst).sum + s.totIppktLen + s.cleared.sum =
        ((h.map Prod.fst).map Arrival.payload).sum) ∧
      ∀ f : Arrival, (∃ r, myCallback interval s f = .ok r) ↔
        f.Readable ∧ ∀ p ∈ f.capture, s.Room interval p := by
  have w : Followed interval h s :=
    run.invariant (I := fun h s => Followed interval h s) ⟨rfl, [], .nil, rfl, rfl⟩
      fun h s f o s' w _ heq => w.step hpos heq
  exact ⟨⟨w.packets, w.bytes⟩, myCallback_returns_iff hpos s⟩

def arrivalSample (now : ℤ) : Arrival :=
  { bytes := List.replicate 12 0x02#8 ++ [0x08#8, 0x00#8, 0x45#8, 0x00#8, 0x00#8, 0x80#8] ++
      List.replicate 124 0x00#8
    len := 142#32
    now := now }

theorem frames_accounted_sample :
    ∃ h s, Run (myCallback 1000) Speed.new h s ∧
      (s.reported.map Prod.fst).sum + s.totIppktLen + s.cleared.sum = 200 ∧
      ¬∃ r, myCallback 1000 s
        { arrivalSample 2 with bytes := (arrivalSample 2).bytes.take 14 } = .ok r := by
  obtain ⟨h, s, run, hcalls⟩ := exists_run_of_isOk
    (by decide +kernel :
      (exec (myCallback 1000) Speed.new [arrivalSample 0, arrivalSample 1]).isOk)
  obtain ⟨⟨-, hbytes⟩, hreturns⟩ := frames_accounted (by decide) run
  refine ⟨h, s, run, hbytes.trans ?_, ?_⟩
  · rw [hcalls]
    decide +kernel
  · rw [hreturns]
    rintro ⟨hreadable, -⟩
    revert hreadable
    decide +kernel

end MeasurementLimiter.MeasureRate
