import MeasurementLimiter.RateStreams

namespace MeasurementLimiter.MeasureRate

open Runs Sequences
open FiveTuple (Frame)

variable {I : IntRange} {interval : ℤ} {counted : ℕ → ℤ} {s s' : Streams} {f : Frame}
  {e : (ℕ × ℕ) × ℕ} {n : ℕ} {l : List StreamCall} {ports : ℕ × ℕ} {lines : List Line}
  {seen : List (ℕ × ℕ)}

theorem Streams.number_seen (h : s.mp ports ≠ 0) : s.number ports = s := if_neg h

theorem Streams.number_new (h : s.mp ports = 0) :
    s.number ports = { s with
      streamId := s.streamId + 1
      mp := Function.update s.mp ports (s.streamId + 1) } := if_pos h

theorem Streams.number_arrays (s : Streams) (ports : ℕ × ℕ) :
    (s.number ports).totIppktLen = s.totIppktLen ∧ (s.number ports).q = s.q ∧
      (s.number ports).totPacket = s.totPacket ∧ s.streamId ≤ (s.number ports).streamId := by
  unfold Streams.number
  split_ifs
  · exact ⟨rfl, rfl, rfl, Nat.le_succ _⟩
  · exact ⟨rfl, rfl, rfl, le_rfl⟩

/-- The streams `seen` have the numbers from 1 on in their order. -/
structure InOrder (seen : List (ℕ × ℕ)) (s : Streams) : Prop where
  mp : ∀ ports, s.mp ports = if ports ∈ seen then seen.idxOf ports + 1 else 0
  streamId : s.streamId = seen.length

theorem InOrder.mp_ne_zero_iff (o : InOrder seen s) : s.mp ports ≠ 0 ↔ ports ∈ seen := by
  rw [o.mp]
  split_ifs with h <;> simp [h]

theorem InOrder.mp_le (o : InOrder seen s) (ports : ℕ × ℕ) : s.mp ports ≤ s.streamId := by
  rw [o.mp, o.streamId]
  split_ifs with h
  · exact List.idxOf_lt_length_of_mem h
  · exact Nat.zero_le _

theorem InOrder.mp_ne (o : InOrder seen s) {a b : ℕ × ℕ} (ha : s.mp a ≠ 0) (hab : a ≠ b) :
    s.mp a ≠ s.mp b := by
  intro heq
  have hb : s.mp b ≠ 0 := heq ▸ ha
  rw [o.mp a, o.mp b, if_pos (o.mp_ne_zero_iff.mp ha), if_pos (o.mp_ne_zero_iff.mp hb)] at heq
  apply hab
  apply (List.idxOf_inj (o.mp_ne_zero_iff.mp ha)).mp
  omega

theorem InOrder.number (o : InOrder seen s) (ports : ℕ × ℕ) :
    InOrder (appendNew seen ports) (s.number ports) := by
  have hmp := o.mp ports
  by_cases hmem : ports ∈ seen
  · rw [if_pos hmem] at hmp
    rw [appendNew, if_pos hmem, Streams.number_seen (by omega)]
    exact o
  · rw [if_neg hmem] at hmp
    rw [appendNew, if_neg hmem, Streams.number_new hmp]
    refine ⟨fun ports' => ?_, ?_⟩
    · change Function.update s.mp ports (s.streamId + 1) ports' = _
      rcases eq_or_ne ports' ports with rfl | hne
      · rw [Function.update_self, if_pos (List.mem_append_right _ List.mem_cons_self),
          List.idxOf_append_of_notMem hmem, List.idxOf_cons_self, o.streamId]
      · rw [Function.update_of_ne hne, o.mp]
        by_cases hold : ports' ∈ seen
        · rw [if_pos hold, if_pos (List.mem_append_left _ hold), List.idxOf_append_of_mem hold]
        · rw [if_neg hold, if_neg]
          simp [hold, hne]
    · change s.streamId + 1 = _
      rw [o.streamId, List.length_append, List.length_singleton]

theorem InOrder.number_eq (o : InOrder seen s) (ports : ℕ × ℕ) :
    (s.number ports).mp ports = (appendNew seen ports).idxOf ports + 1 := by
  rw [(o.number ports).mp, if_pos (mem_appendNew.mpr (.inr rfl))]

theorem InOrder.number_lt_iff (o : InOrder seen s) (hroom : s.streamId < qn) (ports : ℕ × ℕ) :
    (s.number ports).mp ports < qn ↔ (appendNew seen ports).length < qn := by
  rw [o.streamId] at hroom
  rw [o.number_eq]
  by_cases hmem : ports ∈ seen
  · have hindex := List.idxOf_lt_length_of_mem hmem
    rw [appendNew, if_pos hmem]
    omega
  · rw [appendNew, if_neg hmem, List.idxOf_append_of_notMem hmem, List.idxOf_cons_self,
      List.length_append, List.length_singleton]

def Streams.add (nowId : ℕ) (bytes : ℤ) (s : Streams) : Streams :=
  { s with
    totIppktLen := Function.update s.totIppktLen nowId (s.totIppktLen nowId + bytes)
    totPacket := s.totPacket + 1 }

structure Sampled (interval : ℤ) (n : ℕ) (s s' : Streams) : Prop where
  mp : s'.mp = s.mp
  streamId : s'.streamId = s.streamId
  totPacket : s'.totPacket = s.totPacket
  totIppktLen : ∀ id, s'.totIppktLen id = if id ∈ Finset.Icc 1 n then 0 else s.totIppktLen id
  q : ∀ id, s'.q id = if id ∈ Finset.Icc 1 n then
    pushRate (s.q id) (rate interval (s.totIppktLen id)) else s.q id

theorem sampled_zero (interval : ℤ) (s : Streams) : Sampled interval 0 s s :=
  ⟨rfl, rfl, rfl, fun id => by simp, fun id => by simp⟩

theorem Sampled.sample (h : Sampled interval n s s') :
    Sampled interval (n + 1) s (s'.sample interval (n + 1)) := by
  have hout : n + 1 ∉ Finset.Icc 1 n := by simp
  have htot := h.totIppktLen (n + 1)
  have hq := h.q (n + 1)
  rw [if_neg hout] at htot hq
  have hIcc : ∀ id, id ≠ n + 1 → (id ∈ Finset.Icc 1 (n + 1) ↔ id ∈ Finset.Icc 1 n) := by
    intro id hne
    simp only [Finset.mem_Icc]
    omega
  refine ⟨h.mp, h.streamId, h.totPacket, fun id => ?_, fun id => ?_⟩
  · change Function.update s'.totIppktLen (n + 1) 0 id = _
    rcases eq_or_ne id (n + 1) with rfl | hne
    · rw [Function.update_self, if_pos (by simp)]
    · rw [Function.update_of_ne hne, h.totIppktLen]
      simp only [hIcc id hne]
  · change Function.update s'.q (n + 1) _ id = _
    rcases eq_or_ne id (n + 1) with rfl | hne
    · rw [Function.update_self, if_pos (by simp), hq, htot]
    · rw [Function.update_of_ne hne, h.q]
      simp only [hIcc id hne]

/-- What a call does to the globals: a packet that is not handled leaves them, any other is counted
for its stream, and a tick takes the rate of every stream. -/
inductive Moved (interval : ℤ) (counted : ℕ → ℤ) (s : Streams) : StreamCall → Streams → Prop
  | skip {f : Frame} (h : streamPacket f = none) : Moved interval counted s (.packet f) s
  | count {f : Frame} {e : (ℕ × ℕ) × ℕ} (h : streamPacket f = some e)
      (hid : (s.number e.1).mp e.1 < qn) : Moved interval counted s (.packet f)
        ((s.number e.1).add ((s.number e.1).mp e.1) (counted e.2))
  | sample {s' : Streams} (h : Sampled interval s.streamId s s') : Moved interval counted s .tick s'

/-- After the calls `l` the arrays hold a meter for each stream, and nothing past the last. -/
structure Separate (interval : ℤ) (counted : ℕ → ℤ) (s : Streams) (l : List StreamCall) :
    Prop where
  order : InOrder (portOrder l) s
  room : s.streamId < qn
  fresh : ∀ id, s.streamId < id → s.totIppktLen id = 0 ∧ s.q id = []
  meter : ∀ ports, s.meter ports = meterOf interval counted ports l
  pending : s.pending = handledBytes counted (intervalsOf l).2
  totPacket : s.totPacket = (handled (packetsOf l)).length

theorem separate_new (interval : ℤ) (counted : ℕ → ℤ) : Separate interval counted .new [] :=
  ⟨⟨fun _ => rfl, rfl⟩, by decide, fun _ _ => ⟨rfl, rfl⟩, fun _ => rfl, rfl, rfl⟩

theorem Streams.meter_number {a : ℕ × ℕ} (hne : a ≠ ports) :
    (s.number a).meter ports = s.meter ports := by
  unfold Streams.number
  split_ifs
  · simp only [Streams.meter, Function.update_of_ne hne.symm]
  · rfl

theorem Streams.meter_add_other (o : InOrder seen s) {a : ℕ × ℕ} (hmp : s.mp a ≠ 0)
    (hne : a ≠ ports) (bytes : ℤ) : (s.add (s.mp a) bytes).meter ports = s.meter ports := by
  have hplace := o.mp_ne hmp hne
  simp only [Streams.meter, Streams.add, Function.update_of_ne hplace.symm]

theorem Separate.meter_own (h : Separate interval counted s l) (ports : ℕ × ℕ) (bytes : ℤ) :
    ((s.number ports).add ((s.number ports).mp ports) bytes).meter ports =
      meterCall interval (s.meter ports) (some bytes) := by
  by_cases hmp : s.mp ports = 0
  · obtain ⟨htot, hq⟩ := h.fresh (s.streamId + 1) (Nat.lt_succ_self _)
    rw [Streams.number_new hmp]
    simp [Streams.meter, Streams.add, hmp, htot, hq, meterCall]
  · rw [Streams.number_seen hmp]
    simp [Streams.meter, Streams.add, hmp, meterCall]

theorem Separate.number_pending (h : Separate interval counted s l) (ports : ℕ × ℕ) :
    (s.number ports).pending = s.pending := by
  by_cases hmp : s.mp ports = 0
  · rw [Streams.number_new hmp]
    change ∑ id ∈ Finset.Icc 1 (s.streamId + 1), s.totIppktLen id = _
    rw [Finset.sum_Icc_succ_top (Nat.succ_pos _), (h.fresh _ (Nat.lt_succ_self _)).1, add_zero]
    rfl
  · rw [Streams.number_seen hmp]

theorem Streams.add_pending (hid : n ∈ Finset.Icc 1 s.streamId) (bytes : ℤ) :
    (s.add n bytes).pending = s.pending + bytes := by
  change ∑ id ∈ Finset.Icc 1 s.streamId, Function.update s.totIppktLen n _ id = _
  rw [Finset.sum_update_of_mem hid, Streams.pending,
    ← Finset.sum_sdiff (Finset.singleton_subset_iff.mpr hid), Finset.sum_singleton]
  ring

theorem Separate.skip (h : Separate interval counted s l) (hf : streamPacket f = none) :
    Separate interval counted s (l ++ [.packet f]) := by
  refine ⟨?_, h.room, h.fresh, fun ports => ?_, ?_, ?_⟩
  · rw [portOrder_none hf]
    exact h.order
  · rw [meterOf_skip hf, h.meter]
  · rw [h.pending, intervalsOf_concat, addCall, handledBytes, handledBytes, handled_none _ hf]
  · rw [h.totPacket, packetsOf_packet, handled_none _ hf]

theorem Separate.count (h : Separate interval counted s l) (hf : streamPacket f = some e)
    (hid : (s.number e.1).mp e.1 < qn) :
    Separate interval counted ((s.number e.1).add ((s.number e.1).mp e.1) (counted e.2))
      (l ++ [.packet f]) := by
  have o := h.order.number e.1
  have hmp : (s.number e.1).mp e.1 ≠ 0 := o.mp_ne_zero_iff.mpr (mem_appendNew.mpr (.inr rfl))
  have hle := o.mp_le e.1
  obtain ⟨htot, hq, htotPacket, hmono⟩ := s.number_arrays e.1
  refine ⟨?_, ?_, fun id hlt => ?_, fun ports => ?_, ?_, ?_⟩
  · rw [portOrder_some hf]
    exact ⟨o.mp, o.streamId⟩
  · change (s.number e.1).streamId < qn
    rw [o.streamId]
    exact (h.order.number_lt_iff h.room e.1).mp hid
  · change (s.number e.1).streamId < id at hlt
    have hplace : id ≠ (s.number e.1).mp e.1 := by omega
    simp only [Streams.add, Function.update_of_ne hplace, htot, hq]
    exact h.fresh id (hmono.trans_lt hlt)
  · rcases eq_or_ne e.1 ports with rfl | hne
    · rw [h.meter_own, meterOf_own hf, h.meter]
    · rw [Streams.meter_add_other o hmp hne, Streams.meter_number hne, meterOf_other hf hne, h.meter]
  · rw [Streams.add_pending (Finset.mem_Icc.mpr ⟨Nat.pos_of_ne_zero hmp, hle⟩), h.number_pending,
      h.pending, intervalsOf_concat, addCall, handledBytes_some hf]
  · rw [packetsOf_packet, handled_some _ hf, List.length_append, List.length_singleton]
    change (s.number e.1).totPacket + 1 = _
    rw [htotPacket, h.totPacket]
    push_cast
    ring

theorem Separate.tick (h : Separate interval counted s l)
    (hs : Sampled interval s.streamId s s') : Separate interval counted s' (l ++ [.tick]) := by
  refine ⟨?_, ?_, fun id hlt => ?_, fun ports => ?_, ?_, ?_⟩
  · rw [portOrder_tick]
    exact ⟨fun ports => hs.mp ▸ h.order.mp ports, hs.streamId.trans h.order.streamId⟩
  · rw [hs.streamId]
    exact h.room
  · rw [hs.streamId] at hlt
    have hout : id ∉ Finset.Icc 1 s.streamId := by
      simp only [Finset.mem_Icc]
      omega
    rw [hs.totIppktLen, hs.q, if_neg hout, if_neg hout]
    exact h.fresh id hlt
  · rw [meterOf_tick, ← h.meter, Streams.meter, Streams.meter, hs.mp]
    split_ifs with hmp
    · rfl
    · have hin : s.mp ports ∈ Finset.Icc 1 s.streamId :=
        Finset.mem_Icc.mpr ⟨Nat.pos_of_ne_zero hmp, h.order.mp_le ports⟩
      rw [hs.totIppktLen, hs.q, if_pos hin, if_pos hin]
      rfl
  · rw [intervalsOf_concat]
    refine Finset.sum_eq_zero fun id hid => ?_
    rw [hs.streamId] at hid
    rw [hs.totIppktLen, if_pos hid]
  · rw [hs.totPacket, packetsOf_tick, h.totPacket]

theorem Separate.moved {c : StreamCall} (h : Separate interval counted s l)
    (m : Moved interval counted s c s') : Separate interval counted s' (l ++ [c]) := by
  cases m with
  | skip hf => exact h.skip hf
  | count hf hid => exact h.count hf hid
  | sample hs => exact h.tick hs

/-- The integers of the program have room for the bytes of each stream between two ticks and for
the number of the packets, and a tick for what it adds up. -/
structure CountersFit (I : IntRange) (counted : ℕ → ℤ) (atTick : List Frame → Prop)
    (l : List StreamCall) : Prop where
  bytes : ∀ l' f e, l' ++ [.packet f] <+: l → streamPacket f = some e →
    I.Holds (portBytes counted e.1 (intervalsOf (l' ++ [.packet f])).2)
  packets : ∀ l' f e, l' ++ [.packet f] <+: l → streamPacket f = some e →
    I.Holds (handled (packetsOf (l' ++ [.packet f]))).length
  tick : ∀ l', l' ++ [.tick] <+: l → atTick (intervalsOf l').2

def Streams.Room (I : IntRange) (counted : ℕ → ℤ) (s : Streams) (f : Frame) : Prop :=
  (∃ r, streamHeader f = .ok r) ∧ ∀ e ∈ streamPacket f, (s.number e.1).mp e.1 < qn ∧
    I.Holds ((s.number e.1).totIppktLen ((s.number e.1).mp e.1) + counted e.2) ∧
    I.Holds ((s.number e.1).totPacket + 1)

theorem Separate.room_iff (h : Separate interval counted s l) (f : Frame) :
    s.Room I counted f ↔ (∃ r, streamHeader f = .ok r) ∧
      (portOrder (l ++ [.packet f])).length < qn ∧ ∀ e ∈ streamPacket f,
        I.Holds (portBytes counted e.1 (intervalsOf (l ++ [.packet f])).2) ∧
        I.Holds (handled (packetsOf (l ++ [.packet f]))).length := by
  rw [Streams.Room]
  refine and_congr_right fun _ => ?_
  cases hf : streamPacket f with
  | none =>
    have hroom := h.room
    rw [h.order.streamId] at hroom
    simp [portOrder_none hf, hroom]
  | some e =>
    have hbytes : (s.number e.1).totIppktLen ((s.number e.1).mp e.1) + counted e.2 =
        portBytes counted e.1 (intervalsOf (l ++ [.packet f])).2 := by
      have hmeter := h.meter_own e.1 (counted e.2)
      rw [h.meter, ← meterOf_own hf, meterOf_eq, if_pos
        (by rw [packetsOf_packet, mem_seenPorts_some hf]; exact .inr rfl), Streams.meter] at hmeter
      split_ifs at hmeter with hzero
      have hpair := congrArg Prod.fst (Option.some.inj hmeter)
      change Function.update _ ((s.number e.1).mp e.1) _ ((s.number e.1).mp e.1) = _ at hpair
      rwa [Function.update_self] at hpair
    have hpackets : (s.number e.1).totPacket + 1 =
        ((handled (packetsOf (l ++ [.packet f]))).length : ℤ) := by
      rw [(s.number_arrays e.1).2.2.1, h.totPacket, packetsOf_packet, handled_some _ hf,
        List.length_append, List.length_singleton]
      push_cast
      ring
    simp only [Option.mem_some_iff, forall_eq', hbytes, hpackets, portOrder_some hf,
      h.order.number_lt_iff h.room]

/-- A program that numbers its streams, counts `counted len` bytes of a packet and returns from a
tick where `atTick` holds of the packets since the last one. -/
structure Counts {ω : Type} (I : IntRange) (interval : ℤ) (counted : ℕ → ℤ)
    (atTick : List Frame → Prop) (step : Streams → StreamCall → Except RateFault (ω × Streams)) :
    Prop where
  packet : ∀ s f, (∃ r, step s (.packet f) = .ok r) ↔ s.Room I counted f
  tick : ∀ s l, Separate interval counted s l →
    ((∃ r, step s .tick = .ok r) ↔ atTick (intervalsOf l).2)
  moved : ∀ s l c o s', Separate interval counted s l → step s c = .ok (o, s') →
    Moved interval counted s c s'

section Counts

variable {ω : Type} {atTick : List Frame → Prop}
  {step : Streams → StreamCall → Except RateFault (ω × Streams)} {h : List (StreamCall × ω)}

theorem Counts.separate (k : Counts I interval counted atTick step)
    (run : Run step Streams.new h s) : Separate interval counted s (h.map Prod.fst) := by
  refine run.invariant (I := fun h s => Separate interval counted s (h.map Prod.fst))
    (separate_new interval counted) ?_
  intro h s c o s' hI _ hs
  rw [List.map_append]
  exact hI.moved (k.moved s _ c o s' hI hs)

/-- A list of calls runs to its end if and only if the header of each packet can be read, the arrays
have a place for each stream and the counters fit. -/
theorem Counts.exists_run_iff (k : Counts I interval counted atTick step) (l : List StreamCall) :
    (∃ h s, Run step Streams.new h s ∧ h.map Prod.fst = l) ↔
      (∀ f ∈ packetsOf l, ∃ r, streamHeader f = .ok r) ∧ (portOrder l).length < qn ∧
        CountersFit I counted atTick l := by
  constructor
  · intro hrun
    have hcall : ∀ l' c, l' ++ [c] <+: l → ∃ s, Separate interval counted s l' ∧
        ∃ r, step s c = .ok r := by
      intro l' c hp
      obtain ⟨h, s, run, rfl⟩ := exists_run_prefix hrun ((List.prefix_append l' [c]).trans hp)
      exact ⟨s, k.separate run, Runs.exists_run_iff.mp hrun h s c run hp⟩
    have hpacket : ∀ l' f, l' ++ [.packet f] <+: l → (∃ r, streamHeader f = .ok r) ∧
        ∀ e ∈ streamPacket f, I.Holds (portBytes counted e.1 (intervalsOf (l' ++ [.packet f])).2) ∧
          I.Holds (handled (packetsOf (l' ++ [.packet f]))).length := by
      intro l' f hp
      obtain ⟨s, hs, hreturns⟩ := hcall l' (.packet f) hp
      obtain ⟨hheader, -, hfits⟩ := (hs.room_iff f).mp ((k.packet s f).mp hreturns)
      exact ⟨hheader, hfits⟩
    refine ⟨fun f hf => ?_, ?_, ⟨fun l' f e hp he => ((hpacket l' f hp).2 e he).1,
      fun l' f e hp he => ((hpacket l' f hp).2 e he).2, fun l' hp => ?_⟩⟩
    · obtain ⟨before, rest, rfl⟩ := List.append_of_mem (mem_packetsOf.mp hf)
      exact (hpacket before f ⟨rest, by simp⟩).1
    · obtain ⟨h, s, run, rfl⟩ := hrun
      have hs := k.separate run
      rw [← hs.order.streamId]
      exact hs.room
    · obtain ⟨s, hs, hreturns⟩ := hcall l' .tick hp
      exact (k.tick s l' hs).mp hreturns
  · rintro ⟨hheader, hfew, hfit⟩
    refine Runs.exists_run_iff.mpr fun h s c run hp => ?_
    have hs := k.separate run
    cases c with
    | tick => exact (k.tick s _ hs).mpr (hfit.tick _ hp)
    | packet f =>
      refine (k.packet s f).mpr ((hs.room_iff f).mpr ⟨hheader f ?_, ?_, fun e he => ?_⟩)
      · exact mem_packetsOf.mpr (hp.subset (List.mem_append_right _ List.mem_cons_self))
      · exact (portOrder_mono hp).length_le.trans_lt hfew
      · exact ⟨hfit.bytes _ f e hp he, hfit.packets _ f e hp he⟩

end Counts

theorem handleStream_moved (hs : handleStream I counted s f = .ok (lines, s')) :
    Moved interval counted s (.packet f) s' := by
  unfold handleStream at hs
  cases hf : streamHeader f with
  | error e => simp [hf] at hs
  | ok r =>
    obtain ⟨lines', e⟩ := r
    cases e with
    | none =>
      simp only [hf, Except.ok.injEq, Prod.mk.injEq] at hs
      obtain ⟨-, rfl⟩ := hs
      exact .skip (streamPacket_none hf)
    | some e =>
      simp only [hf] at hs
      split_ifs at hs with hid
      simp only [bind_eq_ok, IntRange.keep_eq_ok] at hs
      obtain ⟨_, ⟨-, rfl⟩, _, ⟨-, rfl⟩, hs⟩ := hs
      obtain ⟨-, rfl⟩ := Prod.mk.inj (Except.ok.inj hs)
      exact .count (streamPacket_some hf) hid

theorem handleStream_returns_iff :
    (∃ r, handleStream I counted s f = .ok r) ↔ s.Room I counted f := by
  unfold handleStream Streams.Room
  cases hf : streamHeader f with
  | error e => simp
  | ok r =>
    obtain ⟨lines', e⟩ := r
    cases e with
    | none => simp [streamPacket_none hf]
    | some e =>
      simp only [streamPacket_some hf, Option.mem_some_iff, forall_eq']
      by_cases hid : (s.number e.1).mp e.1 < qn
      case neg => simp [hid]
      rw [if_pos hid]
      constructor
      · rintro ⟨r, hr⟩
        simp only [bind_eq_ok, IntRange.keep_eq_ok] at hr
        obtain ⟨_, ⟨hbytes, -⟩, _, ⟨hpackets, -⟩, -⟩ := hr
        exact ⟨⟨_, rfl⟩, hid, hbytes, hpackets⟩
      · rintro ⟨-, -, hbytes, hpackets⟩
        rw [IntRange.keep_of_holds hbytes, ok_bind, IntRange.keep_of_holds hpackets]
        exact ⟨_, rfl⟩

theorem tickStream_eq_ok {tot tot' : ℤ} :
    tickStream I interval (tot, s) n = .ok (tot', s') ↔
      n < qn ∧ I.Holds (tot + s.totIppktLen n) ∧ tot' = tot + s.totIppktLen n ∧
        s' = s.sample interval n := by
  unfold tickStream
  by_cases hn : n < qn
  case neg => simp [hn]
  obtain ⟨smooth, hsmooth⟩ := getRatio_ok
    (pushRate_ne_nil (s.q n) (rate interval (s.totIppktLen n)))
  rw [if_pos hn]
  simp only [hsmooth, ok_bind, bind_eq_ok, IntRange.keep_eq_ok, hn, true_and]
  constructor
  · rintro ⟨_, ⟨hfits, rfl⟩, heq⟩
    obtain ⟨rfl, rfl⟩ := Prod.mk.inj (Except.ok.inj heq)
    exact ⟨hfits, rfl, rfl⟩
  · rintro ⟨hfits, rfl, rfl⟩
    exact ⟨_, ⟨hfits, rfl⟩, rfl⟩

/-- The loop of `test_func` adds up the bytes of the first `n` streams and takes their rates, if
the sums fit. -/
theorem tickLoop_eq_ok {tot : ℤ} (n : ℕ) :
    (List.range' 1 n).foldlM (tickStream I interval) (0, s) = .ok (tot, s') →
      tot = ∑ id ∈ Finset.Icc 1 n, s.totIppktLen id ∧ Sampled interval n s s' ∧
        ∀ k, 1 ≤ k → k ≤ n → I.Holds (∑ id ∈ Finset.Icc 1 k, s.totIppktLen id) := by
  induction n generalizing tot s' with
  | zero =>
    intro h
    obtain ⟨rfl, rfl⟩ := Prod.mk.inj (Except.ok.inj h)
    exact ⟨rfl, sampled_zero interval s, fun k h₁ hk => absurd (h₁.trans hk) (by decide)⟩
  | succ n ih =>
    intro h
    rw [List.range'_concat, List.foldlM_append, one_mul, Nat.add_comm 1 n, bind_eq_ok] at h
    obtain ⟨⟨tot₁, s₁⟩, hinit, hlast⟩ := h
    obtain ⟨rfl, h₁, hfits⟩ := ih hinit
    rw [List.foldlM_cons, bind_eq_ok] at hlast
    obtain ⟨⟨tot₂, s₂⟩, hround, hend⟩ := hlast
    obtain ⟨rfl, rfl⟩ := Prod.mk.inj (Except.ok.inj hend)
    have htot := h₁.totIppktLen (n + 1)
    rw [if_neg (by simp)] at htot
    obtain ⟨-, hnext, rfl, rfl⟩ := tickStream_eq_ok.mp hround
    rw [htot, ← Finset.sum_Icc_succ_top (Nat.succ_pos n)] at hnext ⊢
    refine ⟨rfl, h₁.sample, fun k h₁ hk => ?_⟩
    rcases Nat.lt_succ_iff_lt_or_eq.mp (Nat.lt_succ_of_le hk) with hlt | rfl
    · exact hfits k h₁ (Nat.le_of_lt_succ hlt)
    · exact hnext

theorem tickLoop_ok (hn : n < qn)
    (hfits : ∀ k, k ≤ n → I.Holds (∑ id ∈ Finset.Icc 1 k, s.totIppktLen id)) :
    ∃ r, (List.range' 1 n).foldlM (tickStream I interval) (0, s) = .ok r := by
  induction n with
  | zero => exact ⟨_, rfl⟩
  | succ n ih =>
    obtain ⟨⟨tot, s₁⟩, hinit⟩ := ih (Nat.lt_of_succ_lt hn) fun k hk => hfits k (Nat.le_succ_of_le hk)
    obtain ⟨rfl, h₁, -⟩ := tickLoop_eq_ok n hinit
    have htot := h₁.totIppktLen (n + 1)
    rw [if_neg (by simp)] at htot
    have hround : tickStream I interval (∑ id ∈ Finset.Icc 1 n, s.totIppktLen id, s₁) (n + 1) =
        .ok (∑ id ∈ Finset.Icc 1 n, s.totIppktLen id + s₁.totIppktLen (n + 1),
          s₁.sample interval (n + 1)) := by
      rw [tickStream_eq_ok]
      refine ⟨hn, ?_, rfl, rfl⟩
      rw [htot, ← Finset.sum_Icc_succ_top (Nat.succ_pos n)]
      exact hfits (n + 1) le_rfl
    rw [List.range'_concat, List.foldlM_append, hinit, ok_bind, one_mul, Nat.add_comm 1 n,
      List.foldlM_cons, hround]
    exact ⟨_, rfl⟩

theorem InOrder.onto (o : InOrder seen s) {id : ℕ} (hid : id ∈ Finset.Icc 1 s.streamId)
    (hnodup : seen.Nodup) : ∃ ports, s.mp ports = id := by
  obtain ⟨h₁, hle⟩ := Finset.mem_Icc.mp hid
  rw [o.streamId] at hle
  have hlt : id - 1 < seen.length := by omega
  refine ⟨seen[id - 1], ?_⟩
  rw [o.mp, if_pos (List.getElem_mem hlt), hnodup.idxOf_getElem]
  omega

theorem nodup_portOrder (l : List StreamCall) : (portOrder l).Nodup := nodup_firstSeen _

theorem Separate.totIppktLen_nonneg (h : Separate interval Nat.cast s l) {id : ℕ}
    (hid : id ∈ Finset.Icc 1 s.streamId) : 0 ≤ s.totIppktLen id := by
  obtain ⟨ports, rfl⟩ := h.order.onto hid (nodup_portOrder l)
  have hmeter := h.meter ports
  have hmp : s.mp ports ≠ 0 := Nat.ne_of_gt (Finset.mem_Icc.mp hid).1
  rw [Streams.meter, if_neg hmp, meterOf_eq] at hmeter
  split_ifs at hmeter
  have hbytes := congrArg Prod.fst (Option.some.inj hmeter)
  dsimp only at hbytes
  rw [hbytes, portBytes]
  refine List.sum_nonneg fun x hx => ?_
  obtain ⟨e, -, rfl⟩ := List.mem_map.mp hx
  exact Int.natCast_nonneg _

def TotalFits (I : IntRange) (ps : List Frame) : Prop := I.Holds (handledBytes Nat.cast ps)

theorem testFunc_eq_ok (hs : testFunc I interval s = .ok (lines, s')) :
    lines = [.total s.pending] ∧ Sampled interval s.streamId s s' ∧
      ∀ k, 1 ≤ k → k ≤ s.streamId → I.Holds (∑ id ∈ Finset.Icc 1 k, s.totIppktLen id) := by
  obtain ⟨⟨tot, s₁⟩, hloop, hlast⟩ := bind_eq_ok.mp hs
  obtain ⟨rfl, rfl⟩ := Prod.mk.inj (Except.ok.inj hlast)
  obtain ⟨rfl, hsampled, hfits⟩ := tickLoop_eq_ok s.streamId hloop
  exact ⟨rfl, hsampled, hfits⟩

theorem testFunc_returns_iff (h : Separate interval Nat.cast s l) :
    (∃ r, testFunc I interval s = .ok r) ↔ TotalFits I (intervalsOf l).2 := by
  rw [TotalFits, ← h.pending]
  constructor
  · rintro ⟨⟨lines, s'⟩, hs⟩
    by_cases hnone : s.streamId = 0
    · have hzero : s.pending = 0 := by
        rw [Streams.pending, hnone]
        rfl
      rw [hzero]
      cases I with
      | exact => trivial
      | int32 => decide
    · exact (testFunc_eq_ok hs).2.2 _ (Nat.pos_of_ne_zero hnone) le_rfl
  · intro hfits
    have hpart : ∀ k ≤ s.streamId, I.Holds (∑ id ∈ Finset.Icc 1 k, s.totIppktLen id) := by
      intro k hk
      have hsub : Finset.Icc 1 k ⊆ Finset.Icc 1 s.streamId := Finset.Icc_subset_Icc_right hk
      refine hfits.mono (Finset.sum_nonneg fun id hid => h.totIppktLen_nonneg (hsub hid)) ?_
      exact Finset.sum_le_sum_of_subset_of_nonneg hsub fun id hid _ => h.totIppktLen_nonneg hid
    obtain ⟨r, hr⟩ : ∃ r, (List.range' 1 s.streamId).foldlM (tickStream I interval) (0, s) = .ok r :=
      tickLoop_ok h.room hpart
    rw [testFunc, hr]
    exact ⟨_, rfl⟩

theorem countBurst_counts (I : IntRange) (interval : ℤ) :
    Counts I interval Nat.cast (TotalFits I) (countBurst I interval) := by
  refine ⟨fun s f => handleStream_returns_iff, fun s l h => testFunc_returns_iff h,
    fun s _ c lines s' _ hs => ?_⟩
  cases c with
  | packet f => exact handleStream_moved hs
  | tick => exact .sample (testFunc_eq_ok hs).2.1

end MeasurementLimiter.MeasureRate
