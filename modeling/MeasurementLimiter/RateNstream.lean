import MeasurementLimiter.RateCounts

namespace MeasurementLimiter.MeasureRate

open Runs Sequences
open FiveTuple (Frame Ipv4Frame)

/-- What `nstream` prints: a line of `handle_IP`, or the rate of a stream. -/
inductive StreamLine
  | header (line : Line)
  | stream (nowId : ℕ) (smooth : ℚ)
  deriving DecidableEq

/-- The body of the loop of `test_func`, with the lines printed so far before the globals. -/
def tickNstream (interval : ℤ) (s : List StreamLine × Streams) (nowId : ℕ) :
    Except RateFault (List StreamLine × Streams) :=
  if nowId < qn then do
    let smooth ← getRatio (pushRate (s.2.q nowId) (rate interval (s.2.totIppktLen nowId)))
    return (s.1 ++ [.stream nowId smooth], s.2.sample interval nowId)
  else .error .index

def testNstream (interval : ℤ) (s : Streams) : Except RateFault (List StreamLine × Streams) :=
  (List.range' 1 s.streamId).foldlM (tickNstream interval) ([], s)

/-- The bytes that `nstream` counts of a packet. -/
def nstreamCounted (len : ℕ) : ℤ := len - packetHeader

/-- `nstream`.  No tick comes with an `interval` of 0. -/
def nstream (I : IntRange) (interval : ℤ) (s : Streams) :
    StreamCall → Except RateFault (List StreamLine × Streams)
  | .packet f => do
    let (lines, s) ← handleStream I nstreamCounted s f
    return (lines.map .header, s)
  | .tick => testNstream interval s

/-- The indices at which a call reads and writes the arrays. -/
def Streams.indices (s : Streams) : StreamCall → List ℕ
  | .packet f => ((streamPacket f).map fun e => (s.number e.1).mp e.1).toList
  | .tick => List.range' 1 s.streamId

/-- The pairs of ports in the order of their first packets. -/
def realOrder (l : List StreamCall) : List (ℕ × ℕ) := firstSeen ((packetsOf l).map Frame.ports)

/-- A packet of the calls `l` is given to a program in state `s`. -/
def Arrives {ω : Type} (step : Streams → StreamCall → Except RateFault (ω × Streams))
    (l : List StreamCall) (s : Streams) (f : Frame) : Prop :=
  ∃ h, Run step Streams.new h s ∧ h.map Prod.fst ++ [.packet f] <+: l

/-- Along the calls `l` the pairs of ports have the numbers from 1 on in the order in which they
come, and each number in use is an index of the arrays. -/
structure NumberedSoundly {ω : Type}
    (step : Streams → StreamCall → Except RateFault (ω × Streams)) (l : List StreamCall) : Prop where
  returns : ∃ h s, Run step Streams.new h s ∧ h.map Prod.fst = l
  inside : ∀ h s c, Run step Streams.new h s → h.map Prod.fst ++ [c] <+: l →
    ∀ id ∈ s.indices c, id < qn
  inUse : ∀ h s, Run step Streams.new h s → h.map Prod.fst <+: l →
    s.streamId = (realOrder (h.map Prod.fst)).length
  order : ∀ s f, Arrives step l s f → s.indices (.packet f) = [(realOrder l).idxOf f.ports + 1]
  same : ∀ s f s' f', Arrives step l s f → Arrives step l s' f' →
    (s.indices (.packet f) = s'.indices (.packet f') ↔ f.ports = f'.ports)

/-- The addresses of the packets fit in the buffers, what the programs take for the ports tells the
pairs of ports apart and does not split one, and the arrays have a place for each pair. -/
structure PortsTaken (l : List StreamCall) : Prop where
  short : ShortAddresses l
  words : ∀ f ∈ packetsOf l, ∀ g ∈ packetsOf l, f.portWords = g.portWords ↔ f.ports = g.ports
  few : ((packetsOf l).map Frame.ports).toFinset.card < qn

variable {I : IntRange} {interval : ℤ} {counted : ℕ → ℤ} {s s' : Streams} {f : Frame}
  {e : (ℕ × ℕ) × ℕ} {n : ℕ} {l : List StreamCall}

theorem nstreamLoop_ok (interval : ℤ) (s : Streams) (hn : n < qn) :
    ∃ lines s', (List.range' 1 n).foldlM (tickNstream interval) ([], s) = .ok (lines, s') ∧
      Sampled interval n s s' ∧ lines.length = n ∧ ∀ i < n, ∃ smooth,
        getRatio (s'.q (i + 1)) = .ok smooth ∧ lines[i]? = some (.stream (i + 1) smooth) := by
  induction n with
  | zero =>
    exact ⟨[], s, rfl, sampled_zero interval s, rfl, fun i hi => absurd hi (Nat.not_lt_zero i)⟩
  | succ n ih =>
    obtain ⟨lines, s₁, heq, h₁, hlen, hprinted⟩ := ih (Nat.lt_of_succ_lt hn)
    obtain ⟨smooth, hsmooth⟩ := getRatio_ok
      (pushRate_ne_nil (s₁.q (n + 1)) (rate interval (s₁.totIppktLen (n + 1))))
    have hlast : tickNstream interval (lines, s₁) (n + 1) =
        .ok (lines ++ [.stream (n + 1) smooth], s₁.sample interval (n + 1)) := by
      rw [tickNstream, if_pos hn]
      simp only [hsmooth]
      rfl
    refine ⟨lines ++ [.stream (n + 1) smooth], s₁.sample interval (n + 1), ?_, h₁.sample, ?_,
      fun i hi => ?_⟩
    · rw [List.range'_concat, List.foldlM_append, heq, ok_bind, one_mul, Nat.add_comm 1 n,
        List.foldlM_cons, hlast]
      rfl
    · simp [hlen]
    · rcases Nat.lt_or_ge i n with hlt | hge
      · obtain ⟨smooth', hkept, hline⟩ := hprinted i hlt
        have hplace : i + 1 ≠ n + 1 := by omega
        refine ⟨smooth', ?_, ?_⟩
        · simpa only [Streams.sample, Function.update_of_ne hplace] using hkept
        · rw [List.getElem?_append_left (by omega)]
          exact hline
      · obtain rfl : i = n := by omega
        refine ⟨smooth, ?_, ?_⟩
        · simpa only [Streams.sample, Function.update_self] using hsmooth
        · rw [List.getElem?_append_right (by omega), hlen]
          simp

theorem nstream_counts (I : IntRange) (interval : ℤ) :
    Counts I interval nstreamCounted (fun _ => True) (nstream I interval) := by
  refine ⟨fun s f => ?_, fun s l h => ?_, fun s l c o s' h hs => ?_⟩
  · rw [← handleStream_returns_iff, nstream]
    cases handleStream I nstreamCounted s f with
    | error e => simp
    | ok r => exact ⟨fun _ => ⟨_, rfl⟩, fun _ => ⟨_, rfl⟩⟩
  · obtain ⟨lines, s', heq, -⟩ := nstreamLoop_ok interval s h.room
    exact ⟨fun _ => trivial, fun _ => ⟨_, heq⟩⟩
  · cases c with
    | packet f =>
      obtain ⟨⟨lines, s₁⟩, hstream, hlast⟩ := bind_eq_ok.mp hs
      obtain ⟨-, rfl⟩ := Prod.mk.inj (Except.ok.inj hlast)
      exact handleStream_moved hstream
    | tick =>
      obtain ⟨lines, s₁, heq, hsampled, -⟩ := nstreamLoop_ok interval s h.room
      obtain ⟨-, rfl⟩ := Prod.mk.inj (Except.ok.inj (heq.symm.trans hs))
      exact .sample hsampled

section Numbers

variable {ω : Type} {atTick : List Frame → Prop}
  {step : Streams → StreamCall → Except RateFault (ω × Streams)} {h : List (StreamCall × ω)}

theorem Streams.indices_some (hf : streamPacket f = some e) :
    s.indices (.packet f) = [(s.number e.1).mp e.1] := by
  rw [Streams.indices, hf]
  rfl

theorem Counts.index (k : Counts I interval counted atTick step) (hf : streamPacket f = some e)
    (a : Arrives step l s f) :
    e.1 ∈ portOrder l ∧ s.indices (.packet f) = [(portOrder l).idxOf e.1 + 1] := by
  obtain ⟨h, run, hp⟩ := a
  obtain ⟨rest, hrest⟩ := portOrder_mono hp
  rw [portOrder_some hf] at hrest
  have hmem : e.1 ∈ appendNew (portOrder (h.map Prod.fst)) e.1 := mem_appendNew.mpr (.inr rfl)
  refine ⟨hrest ▸ List.mem_append_left _ hmem, ?_⟩
  rw [Streams.indices_some hf, (k.separate run).order.number_eq, ← hrest,
    List.idxOf_append_of_mem hmem]

theorem Counts.inside (k : Counts I interval counted atTick step)
    (hrun : ∃ h s, Run step Streams.new h s ∧ h.map Prod.fst = l) {c : StreamCall}
    (run : Run step Streams.new h s) (hp : h.map Prod.fst ++ [c] <+: l) :
    ∀ id ∈ s.indices c, id < qn := by
  have hs := k.separate run
  cases c with
  | tick =>
    intro id hid
    have hle := (List.mem_range'_1.mp hid).2
    have hroom := hs.room
    omega
  | packet f =>
    obtain ⟨-, hplace⟩ := (k.packet s f).mp (Runs.exists_run_iff.mp hrun h s _ run hp)
    cases hf : streamPacket f with
    | none => simp [Streams.indices, hf]
    | some e =>
      rw [Streams.indices_some hf, List.forall_mem_singleton]
      exact (hplace e hf).1

theorem exists_arrives (hrun : ∃ h s, Run step Streams.new h s ∧ h.map Prod.fst = l)
    (hf : f ∈ packetsOf l) : ∃ s, Arrives step l s f := by
  obtain ⟨before, rest, rfl⟩ := List.append_of_mem (mem_packetsOf.mp hf)
  obtain ⟨h, s, run, rfl⟩ := exists_run_prefix hrun (List.prefix_append before _)
  exact ⟨s, h, run, rest, by simp⟩

theorem Arrives.mem (a : Arrives step l s f) : f ∈ packetsOf l := by
  obtain ⟨h, -, hp⟩ := a
  exact mem_packetsOf.mpr (hp.subset (List.mem_append_right _ List.mem_cons_self))

theorem portOrder_real (hip : ∀ f ∈ packetsOf l, Ipv4Frame f f.ihl) (hshort : ShortAddresses l)
    (hwords : ∀ f ∈ packetsOf l, ∀ g ∈ packetsOf l, f.portWords = g.portWords ↔ f.ports = g.ports) :
    (portOrder l).length = (realOrder l).length ∧ ∀ f ∈ packetsOf l,
      (portOrder l).idxOf f.portWords = (realOrder l).idxOf f.ports := by
  rw [portOrder_ipv4 hip hshort]
  exact firstSeen_relabel hwords

theorem NumberedSoundly.taken (k : Counts I interval counted atTick step)
    (hip : ∀ f ∈ packetsOf l, Ipv4Frame f f.ihl) (w : NumberedSoundly step l) :
    PortsTaken l ∧ CountersFit I counted atTick l := by
  obtain ⟨hheader, hfew, hfit⟩ := (k.exists_run_iff l).mp w.returns
  have hshort : ShortAddresses l := fun f hf => (streamHeader_ok_iff (hip f hf)).mp (hheader f hf)
  have hwords : ∀ f ∈ packetsOf l, ∀ g ∈ packetsOf l,
      f.portWords = g.portWords ↔ f.ports = g.ports := by
    intro f hf g hg
    obtain ⟨s, a⟩ := exists_arrives w.returns hf
    obtain ⟨s', a'⟩ := exists_arrives w.returns hg
    obtain ⟨hmem, hindex⟩ := k.index (streamPacket_ipv4 (hip f hf) (hshort f hf)) a
    obtain ⟨-, hindex'⟩ := k.index (streamPacket_ipv4 (hip g hg) (hshort g hg)) a'
    rw [← w.same s f s' g a a', hindex, hindex', List.singleton_inj, Nat.add_right_cancel_iff,
      List.idxOf_inj hmem]
  refine ⟨⟨hshort, hwords, ?_⟩, hfit⟩
  rw [← length_firstSeen]
  exact (portOrder_real hip hshort hwords).1 ▸ hfew

end Numbers

end MeasurementLimiter.MeasureRate
