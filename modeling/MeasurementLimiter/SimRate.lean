import MeasurementLimiter.SimFifo

namespace MeasurementLimiter.RingSim

open Cyclic Runs

variable {r r' : Ring ℚ} {p : Packet ℚ} {i : ℕ} {s s' : Sim ℚ} {rate : ℚ}

def printedBytes {τ : Type} (win : List (List (Line τ))) : ℤ :=
  bytes (win.flatten.map Line.packet)

def Ring.front {τ : Type} (r : Ring τ) (d : ℕ) : ℤ := ∑ j ∈ Finset.range d, bytes (r.nth j)

def capacity (rate : ℚ) : ℚ := rate * 1024

def share (rate : ℚ) : ℚ := capacity rate / block

section Front

variable {τ : Type} {r r' : Ring τ} {p : Packet τ} {win : List (List (Line τ))}

theorem printedBytes_snoc (win : List (List (Line τ))) (n : ℕ) (r : Ring τ) :
    printedBytes (win ++ [(deRing n r).1]) = printedBytes win + bytes (r.packets r.nowPostion) := by
  rw [printedBytes, List.flatten_append, List.map_append, bytes_append, List.flatten_singleton,
    deRing_lines]
  rfl

theorem Positive.nth (h : Positive r) (hr : InRange r) {j : ℕ} (hj : j < block) :
    0 ≤ bytes (r.nth j) :=
  bytes_nonneg (h _ (shift_lt hr.now_lt hj.le))

theorem Consistent.front_block (h : Consistent r) (hr : InRange r) :
    r.front block = r.totBytes := by
  rw [h.total]
  exact sum_shift hr.now_lt fun i => bytes (r.packets i)

theorem Consistent.front_le (h : Consistent r) (hr : InRange r) (hpos : Positive r) {d : ℕ}
    (hd : d ≤ block) : r.front d ≤ r.totBytes := by
  rw [← h.front_block hr]
  refine Finset.sum_le_sum_of_subset_of_nonneg (Finset.range_mono hd) fun j hj _ => ?_
  exact hpos.nth hr (Finset.mem_range.mp hj)

theorem front_put (hr : InRange r) (hi : i < block)
    (hput : r.Put r' i (r.packets i ++ [p]) (r.nowBytes i + p.len)) {d : ℕ} (hd : d ≤ block) :
    (r'.count p).front d = r.front d + if gap block r.nowPostion i < d then p.len else 0 := by
  have hgap : gap block r.nowPostion i < block := gap_lt hi
  have hnth : ∀ j ∈ Finset.range d, bytes ((r'.count p).nth j) =
      bytes (r.nth j) + if j = gap block r.nowPostion i then p.len else 0 := by
    intro j hj
    have hj := Finset.mem_range.mp hj
    have hnow : (r'.count p).nowPostion = r.nowPostion := hput.nowPostion
    have hpackets : (r'.count p).packets = Function.update r.packets i (r.packets i ++ [p]) :=
      hput.packets
    have hplace : shift block r.nowPostion j = i ↔ j = gap block r.nowPostion i := by
      rw [← shift_inj (show j < block by omega) hgap, shift_gap hr.now_lt hi]
    rw [Ring.nth, hnow, hpackets, Function.update_apply]
    by_cases hji : j = gap block r.nowPostion i
    · rw [if_pos (hplace.mpr hji), if_pos hji, Ring.nth, hplace.mpr hji, bytes_append,
        bytes_singleton]
    · rw [if_neg fun he => hji (hplace.mp he), if_neg hji, Ring.nth, add_zero]
  rw [Ring.front, Finset.sum_congr rfl hnth, Finset.sum_add_distrib, Finset.sum_ite_eq']
  simp only [Finset.mem_range]
  rfl

theorem front_step (hr : InRange r) (n : ℕ) {d : ℕ} (hd : d < block) :
    bytes (r.packets r.nowPostion) + (statusUpdate (deRing n r).2).front d = r.front (d + 1) := by
  have hempty : (deRing n r).2.packets (deRing n r).2.nowPostion = [] := by
    rw [(deRing_pointers n r).1, deRing_packets, Function.update_self]
  have hnth : ∀ j ∈ Finset.range d, bytes ((statusUpdate (deRing n r).2).nth j) =
      bytes (r.nth (j + 1)) := by
    intro j hj
    have hj := Finset.mem_range.mp hj
    rw [nth_statusUpdate (hr.deRing n) hempty (by omega), if_neg (by omega),
      nth_deRing hr n (by omega), if_neg (Nat.succ_ne_zero j)]
  rw [Ring.front, Ring.front, Finset.sum_congr rfl hnth, Finset.sum_range_succ', nth_zero hr,
    add_comm]

theorem front_last (hr : InRange r) (n : ℕ) {m : ℕ} (hm : block = m + 1) :
    (statusUpdate (deRing n r).2).front block = (statusUpdate (deRing n r).2).front m := by
  have hempty : (deRing n r).2.packets (deRing n r).2.nowPostion = [] := by
    rw [(deRing_pointers n r).1, deRing_packets, Function.update_self]
  have hlast : (statusUpdate (deRing n r).2).nth m = [] :=
    (nth_statusUpdate (hr.deRing n) hempty (by omega)).trans (if_pos hm.symm)
  rw [Ring.front, Ring.front, hm, Finset.sum_range_succ, hlast, bytes_nil, add_zero]

end Front

theorem bytes_lt_of_needs (hrate : 0 < rate) {t b : ℤ} (ht : 0 ≤ t)
    (hb : (RingNum.exact rate hrate).intervalBlock t ≤ b) : (t : ℚ) < (b + 1) * share rate := by
  have hcap : 0 < capacity rate := by
    unfold capacity
    positivity
  have hblock : (0 : ℚ) < block := by exact_mod_cast block_pos
  have ht' : (0 : ℚ) ≤ t := by exact_mod_cast ht
  have hfloor : (RingNum.exact rate hrate).intervalBlock t = ⌊(t : ℚ) / capacity rate * block⌋ :=
    if_pos (by positivity)
  rw [hfloor] at hb
  have hlt := Int.lt_floor_add_one ((t : ℚ) / capacity rate * block)
  have hle : (⌊(t : ℚ) / capacity rate * block⌋ : ℚ) ≤ b := by exact_mod_cast hb
  have hratio : (t : ℚ) / capacity rate * block < b + 1 := by linarith
  rw [div_mul_eq_mul_div, div_lt_iff₀ hcap] at hratio
  rw [share, mul_div_assoc', lt_div_iff₀ hblock]
  exact hratio

theorem share_pos (hrate : 0 < rate) : 0 < share rate := by
  have hblock : (0 : ℚ) < block := by exact_mod_cast block_pos
  unfold share capacity
  positivity

theorem block_mul_share (rate : ℚ) : block * share rate = capacity rate := by
  have hblock : (block : ℚ) ≠ 0 := by exact_mod_cast block_pos.ne'
  unfold share
  field_simp

/-- The bytes printed since any `de_ring` call, with those in front of the next `d` blocks, are at
most what a full ring held at that call and what fits into the blocks that passed and the next `d`. -/
structure Bounded (rate : ℚ) (printed : List (List (Line ℚ))) (r : Ring ℚ) : Prop where
  total_le : (r.totBytes : ℚ) ≤ capacity rate
  windows : ∀ win, win <:+ printed → ∀ d ≤ block,
    (printedBytes win + r.front d : ℚ) ≤ capacity rate + (win.length + d) * share rate

theorem Bounded.put {printed : List (List (Line ℚ))} (h : Bounded rate printed r)
    (hrate : 0 < rate) (hr : InRange r) (hc : Consistent r) (hpos : Positive r) (hi : i < block)
    (hput : r.Put r' i (r.packets i ++ [p]) (r.nowBytes i + p.len)) (hp : 0 < p.len)
    (hneeds : (RingNum.exact rate hrate).intervalBlock (p.len + r.totBytes) ≤
      gap block r.nowPostion i) : Bounded rate printed (r'.count p) := by
  have hgap : gap block r.nowPostion i < block := gap_lt hi
  have htot : (r'.count p).totBytes = p.len + r.totBytes := by
    change r'.totBytes + p.len = _
    rw [hput.totBytes, add_comm]
  have hnonneg := hpos.nonneg
  rw [← hc.total] at hnonneg
  have hfit : ((p.len + r.totBytes : ℤ) : ℚ) < (gap block r.nowPostion i + 1) * share rate :=
    bytes_lt_of_needs hrate (by omega) hneeds
  have hshare := share_pos hrate
  refine ⟨?_, fun win hwin d hd => ?_⟩
  · have hle : ((gap block r.nowPostion i : ℚ) + 1) * share rate ≤ block * share rate := by
      have : (gap block r.nowPostion i : ℚ) + 1 ≤ block := by exact_mod_cast hgap
      gcongr
    rw [block_mul_share] at hle
    rw [htot]
    linarith
  · rw [front_put hr hi hput hd]
    split_ifs with hbeyond
    -- the window that reaches the new packet holds at most all bytes of the ring
    · have hstart := h.windows win hwin 0 (Nat.zero_le _)
      have hfront : (r.front d : ℚ) ≤ r.totBytes := by exact_mod_cast hc.front_le hr hpos hd
      have hle : ((gap block r.nowPostion i : ℚ) + 1) * share rate ≤ d * share rate := by
        have : (gap block r.nowPostion i : ℚ) + 1 ≤ d := by exact_mod_cast hbeyond
        gcongr
      have hzero : (r.front 0 : ℚ) = 0 := by simp [Ring.front]
      push_cast at hfit ⊢
      rw [hzero] at hstart
      have hsplit : ((win.length : ℚ) + d) * share rate =
          (win.length + (0 : ℕ)) * share rate + d * share rate := by
        push_cast
        ring
      linarith
    · rw [add_zero]
      exact h.windows win hwin d hd

theorem Bounded.step {printed : List (List (Line ℚ))} (h : Bounded rate printed r)
    (hrate : 0 < rate) (hr : InRange r) (hc : Consistent r) (hpos : Positive r) (n : ℕ) :
    Bounded rate (printed ++ [(deRing n r).1]) (statusUpdate (deRing n r).2) := by
  obtain ⟨m, hm⟩ : ∃ m, block = m + 1 := ⟨block - 1, by have := block_pos; omega⟩
  have hshare := share_pos hrate
  have htotal : ((statusUpdate (deRing n r).2).totBytes : ℚ) ≤ capacity rate := by
    have hle : (statusUpdate (deRing n r).2).totBytes ≤ r.totBytes := by
      have := bytes_nonneg (hpos _ hr.now_lt)
      change (deRing n r).2.totBytes ≤ _
      rw [deRing_totBytes]
      omega
    exact (Int.cast_le.mpr hle).trans h.total_le
  refine ⟨htotal, fun win hwin => ?_⟩
  have hshort : ∀ d < block, (printedBytes win + (statusUpdate (deRing n r).2).front d : ℚ) ≤
      capacity rate + (win.length + d) * share rate := by
    intro d hd
    have hfront := front_step hr n hd
    rcases List.suffix_concat_iff.mp hwin with rfl | ⟨old, rfl, hold⟩
    · have hle : (statusUpdate (deRing n r).2).front d ≤ r.totBytes := by
        have hall := hc.front_le hr hpos (show d + 1 ≤ block by omega)
        have := bytes_nonneg (hpos _ hr.now_lt)
        omega
      have hle' : ((statusUpdate (deRing n r).2).front d : ℚ) ≤ r.totBytes := by exact_mod_cast hle
      have hzero : (printedBytes ([] : List (List (Line ℚ))) : ℚ) = 0 := by simp [printedBytes]
      have hmore : 0 ≤ (((List.length ([] : List (List (Line ℚ))) : ℕ) : ℚ) + d) * share rate := by
        positivity
      have := h.total_le
      linarith
    · have hknown := h.windows old hold (d + 1) (by omega)
      rw [← hfront] at hknown
      rw [printedBytes_snoc, List.length_append, List.length_singleton]
      push_cast at hknown ⊢
      linarith
  intro d hd
  rcases hd.lt_or_eq with hlt | rfl
  · exact hshort d hlt
  · have hlast := hshort m (by omega)
    rw [front_last hr n hm]
    have hmore : ((win.length : ℚ) + m) * share rate ≤ (win.length + block) * share rate := by
      have : (m : ℚ) ≤ block := by exact_mod_cast (show m ≤ block by omega)
      gcongr
    linarith

/-- A ring that delivers in order, and whose windows are bounded. -/
structure Smooth (rate : ℚ) (s : Sim ℚ) : Prop extends Delivers s where
  bounded : Bounded rate s.printed s.ring
  past : ∀ win, win <:+: s.printed →
    (printedBytes win : ℚ) ≤ capacity rate + win.length * share rate

theorem inRing_bounded {hrate : 0 < rate} (k : Known s) (hc : Consistent s.ring)
    (hbelow : EachPlaced (.exact rate hrate) s.totRound (fun _ needs => needs ≠ block)
      s.ring.totBytes s.inque) (hb : Bounded rate s.printed s.ring)
    (heq : inRing (.exact rate hrate) s = .ok s') : Bounded rate s.printed s'.ring := by
  have hwrap : NoWrap (.exact rate hrate) s.totRound s.ring.totBytes s.inque :=
    hbelow.mono fun _ _ hne he => absurd he hne
  refine inRingLoop_rule
    (I := fun l t => Counting (.exact rate hrate) s l t ∧
      EachPlaced (.exact rate hrate) s.totRound (fun _ needs => needs ≠ block) t.ring.totBytes l ∧
      Bounded rate s.printed t.ring)
    (J := fun t => Bounded rate s.printed t.ring)
    ?_ ?_ ?_ ?_ ?_ ⟨⟨k.inRange, rfl, k.lengths, .inl ⟨hc, k.positive, Iff.rfl⟩⟩, hbelow, hb⟩ heq
  · rintro p l t ⟨c, hnext, hb⟩ he
    exact ⟨c.expired he, (eachPlaced_expired (c.round ▸ he)).mp hnext, hb⟩
  · rintro p l t ring ⟨c, hnext, hb⟩ he hlong hfit hplace
    obtain ⟨hct, hpos, -⟩ := c.counters.resolve_right fun hw => hw.2 hwrap
    obtain ⟨hne, hrest⟩ := (eachPlaced_place (c.round ▸ he) hlong hfit).mp hnext
    obtain ⟨i, hi, hput, -, hahead⟩ :=
      hct.put_of_place c.inRange hfit (fun he => absurd he hne) hplace
    have htot : (ring.count p).totBytes = t.ring.totBytes + p.len := by
      change ring.totBytes + p.len = _
      rw [hput.totBytes]
    refine ⟨c.place he hlong hfit hplace, ?_,
      hb.put hrate c.inRange hct hpos hi hput (c.lengths p List.mem_cons_self) (hahead hne)⟩
    change EachPlaced _ _ _ (ring.count p).totBytes l
    rwa [htot]
  · exact fun p l t h _ _ => h.2.2
  · exact fun p l t h _ _ _ => h.2.2
  · exact fun t h => h.2.2

theorem Smooth.inRing {hrate : 0 < rate} (d : Smooth rate s)
    (hbelow : EachPlaced (.exact rate hrate) s.totRound (fun _ needs => needs ≠ block)
      s.ring.totBytes s.inque)
    (heq : inRing (.exact rate hrate) s = .ok s') : Smooth rate s' := by
  have hprinted : s'.printed = s.printed := (inRing_frame heq).2.2
  refine ⟨d.toDelivers.inRing (hbelow.mono fun _ _ hne he => absurd he hne) heq, ?_, ?_⟩
  · rw [hprinted]
    exact inRing_bounded d.toKnown d.consistent hbelow d.bounded heq
  · rw [hprinted]
    exact d.past

theorem Smooth.finish (hrate : 0 < rate) (d : Smooth rate s) : Smooth rate s.finish := by
  refine ⟨d.toDelivers.finish, ?_, ?_⟩
  · unfold Sim.finish
    split_ifs
    · exact d.bounded.step hrate d.inRange d.consistent d.positive s.totRound
    · exact d.bounded
  · unfold Sim.finish
    split_ifs
    · have hstep := d.bounded.step hrate d.inRange d.consistent d.positive s.totRound
      intro win hwin
      rcases List.infix_concat_iff.mp hwin with hnew | hold
      · have := hstep.windows win hnew 0 (Nat.zero_le _)
        simpa [Ring.front] using this
      · exact d.past win hold
    · exact d.past

theorem smooth_new (hrate : 0 < rate) (mem : ℕ → ℕ → Packet ℚ) {input : List (Packet ℚ)}
    (hlen : ∀ p ∈ input, 0 < p.len) : Smooth rate (Sim.new mem input) := by
  have hshare := share_pos hrate
  have hcap : 0 ≤ capacity rate := by
    rw [← block_mul_share]
    positivity
  have hempty : ∀ win : List (List (Line ℚ)), win = [] → printedBytes win = 0 := by
    rintro _ rfl
    rfl
  have hfront : ∀ d, (Ring.new mem).front d = 0 := fun d =>
    Finset.sum_eq_zero fun j _ => by rw [Ring.nth, packets_new, bytes_nil]
  refine ⟨delivers_new mem hlen, ⟨?_, fun win hwin d _ => ?_⟩, fun win hwin => ?_⟩
  · simpa [Sim.new, Ring.new] using hcap
  · rw [hempty win (List.suffix_nil.mp hwin)]
    change ((0 : ℤ) + (Ring.new mem).front d : ℚ) ≤ _
    rw [hfront]
    have : 0 ≤ ((win.length : ℚ) + d) * share rate := by positivity
    simpa using add_nonneg hcap this
  · rw [hempty win (List.infix_nil.mp hwin)]
    have : 0 ≤ (win.length : ℚ) * share rate := by positivity
    simpa using add_nonneg hcap this

theorem Smooth.tick {hrate : 0 < rate} (d : Smooth rate s) {c : Unit}
    (hbelow : s.Below (.exact rate hrate) c) {o : Unit}
    (heq : RingSim.tick (.exact rate hrate) s c = .ok (o, s')) : Smooth rate s' := by
  have hbegin : Smooth rate (s.begin (.exact rate hrate)) :=
    ⟨d.toDelivers.begin, d.bounded, d.past⟩
  exact tick_rule hbegin (fun _ hnone ht => hbegin.inRing (hbelow hnone) ht)
    (fun _ d => d.finish hrate) heq

/-- In every run of ticks in which no packet is placed that needs exactly `block` blocks, the
length printed by consecutive calls of `de_ring` is bounded by their number. -/
theorem window_rate_le (hrate : 0 < rate) (mem : ℕ → ℕ → Packet ℚ) {input : List (Packet ℚ)}
    (hlen : ∀ p ∈ input, 0 < p.len) {h : List (Unit × Unit)}
    (run : GuardedRun (RingSim.tick (.exact rate hrate)) (Sim.Below (.exact rate hrate))
      (Sim.new mem input) h s) {win : List (List (Line ℚ))} (hwin : win <:+: s.printed) :
    (printedBytes win : ℚ) ≤ rate * 1024 * (win.length + block + 1) / block := by
  have d : Smooth rate s :=
    run.keeps (smooth_new hrate mem hlen) fun _ _ _ _ d hC heq => d.tick hC heq
  have hblock : (0 : ℚ) < block := by exact_mod_cast block_pos
  have hshare := share_pos hrate
  calc (printedBytes win : ℚ) ≤ capacity rate + win.length * share rate := d.past win hwin
    _ ≤ capacity rate + win.length * share rate + share rate := by linarith
    _ = rate * 1024 * (win.length + block + 1) / block := by
      rw [← block_mul_share, show rate * 1024 = block * share rate from (block_mul_share rate).symm]
      field_simp
      ring

theorem window_rate_le_sample :
    ∃ s : Sim ℚ, s.printed.map (fun lines => lines.map fun line => line.packet.len) = [[100], [120]] ∧
      ∀ win, win <:+: s.printed →
        (printedBytes win : ℚ) ≤ 128 * 1024 * (win.length + block + 1) / block := by
  obtain ⟨h, s, run, hs⟩ := exists_guardedRun_of_exec
    (fun s : Sim ℚ => s.printed.map fun lines => lines.map fun line => line.packet.len)
    (b := [[100], [120]])
    (show (execGuarded (RingSim.tick ringSample) (Sim.Below ringSample)
      (Sim.new memSample [⟨0, 100⟩, ⟨1, 120⟩]) (List.replicate 20 ())).map _ = _ by decide +kernel)
  exact ⟨s, hs, fun win hwin =>
    window_rate_le (by norm_num) memSample (by decide +kernel) run hwin⟩

/-- A packet as long as the ring is placed into the very next block: two calls print two of
them. -/
theorem full_packets_burst :
    ∃ h s, (∀ p ∈ ([⟨0, 131072⟩, ⟨11 / 10, 131072⟩] : List (Packet ℚ)), 0 < p.len) ∧
      Run (RingSim.tick ringSample) (Sim.new memSample [⟨0, 131072⟩, ⟨11 / 10, 131072⟩]) h s ∧
      s.printed.length = 2 ∧
      (128 * 1024 * (2 + block + 1) / block : ℚ) < printedBytes s.printed := by
  obtain ⟨h, s, run, hs⟩ := exists_run_of_exec
    (fun s : Sim ℚ => (s.printed.length, printedBytes s.printed)) (b := (2, 262144))
    (show (exec (RingSim.tick ringSample) (Sim.new memSample [⟨0, 131072⟩, ⟨11 / 10, 131072⟩])
      (List.replicate 20 ())).toOption.map _ = _ by decide +kernel)
  obtain ⟨hlength, hbytes⟩ := Prod.mk.inj hs
  refine ⟨h, s, by decide +kernel, run, hlength, ?_⟩
  rw [hbytes]
  norm_num [block]

end MeasurementLimiter.RingSim
