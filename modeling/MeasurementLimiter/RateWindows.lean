import MeasurementLimiter.RateMeter

namespace MeasurementLimiter.MeasureRate

open Runs

variable {interval t : ℤ} {s s' : Speed} {p : Capture} {l : List Capture} {len : ℕ}

def handledCaptures (l : List Capture) : List Capture := l.filter fun p => (ipHeader p).2.isSome

/-- The bytes of the handled packets with a time from `t` on and before `t + interval`. -/
def windowBytes (interval : ℤ) (l : List Capture) (t : ℤ) : ℤ :=
  countedBytes (l.filter fun p => t ≤ p.now ∧ p.now < t + interval)

def Speed.closed (interval : ℤ) (s : Speed) (p : Capture) : List ℤ :=
  let w := s.openWindow (2 * interval) interval p.now
  if (ipHeader p).2.isSome ∧ w.nxtEnd ≤ p.now then [w.start] else []

/-- The state of the meter after the packets `l`, with the starts of the windows it closed. -/
structure WindowsExact (interval : ℤ) (l : List Capture) (starts : List ℤ) (s : Speed) : Prop where
  nxtEnd : handledCaptures l ≠ [] → s.nxtEnd = s.start + interval
  current : ∀ p ∈ (handledCaptures l).getLast?, s.start ≤ p.now ∧ p.now < s.nxtEnd
  disjoint : starts.Pairwise fun t t' => t + interval ≤ t'
  samples : s.reported.map Prod.snd =
    starts.map fun t => (8 * windowBytes interval l t : ℚ) / (interval * 1000)
  queue : s.q = lastRates queueSize (s.reported.map Prod.snd)

theorem handledCaptures_none (h : (ipHeader p).2 = none) (l : List Capture) :
    handledCaptures (l ++ [p]) = handledCaptures l := by
  rw [handledCaptures, List.filter_append, List.filter_singleton, h]
  exact List.append_nil _

theorem handledCaptures_some (h : (ipHeader p).2 = some len) (l : List Capture) :
    handledCaptures (l ++ [p]) = handledCaptures l ++ [p] := by
  rw [handledCaptures, List.filter_append, List.filter_singleton, h]
  rfl

theorem windowBytes_concat (interval : ℤ) (l : List Capture) (p : Capture) (t : ℤ) :
    windowBytes interval (l ++ [p]) t = windowBytes interval l t +
      if t ≤ p.now ∧ p.now < t + interval then countedBytes [p] else 0 := by
  rw [windowBytes, List.filter_append, countedBytes_append, List.filter_singleton, Bool.cond_decide]
  split_ifs <;> rfl

theorem windowBytes_none (h : (ipHeader p).2 = none) :
    windowBytes interval (l ++ [p]) t = windowBytes interval l t := by
  rw [windowBytes_concat, countedBytes_none h, ite_self, add_zero]

theorem windowBytes_mem (h : (ipHeader p).2 = some len) (hlow : t ≤ p.now)
    (hlt : p.now < t + interval) :
    windowBytes interval (l ++ [p]) t = windowBytes interval l t + (len - packetHeader) := by
  rw [windowBytes_concat, if_pos ⟨hlow, hlt⟩, countedBytes_some h]

theorem windowBytes_later (hle : t + interval ≤ p.now) :
    windowBytes interval (l ++ [p]) t = windowBytes interval l t := by
  rw [windowBytes_concat, if_neg fun h => absurd h.2 (not_lt.mpr hle), add_zero]

theorem windowBytes_eq_zero (h : ∀ p ∈ handledCaptures l, p.now < t) :
    windowBytes interval l t = 0 := by
  induction l using List.reverseRecOn with
  | nil => rfl
  | append_singleton l p ih =>
    cases hlen : (ipHeader p).2 with
    | none =>
      rw [windowBytes_none hlen]
      rw [handledCaptures_none hlen] at h
      exact ih h
    | some len =>
      rw [handledCaptures_some hlen] at h
      have hp := h p (List.mem_append_right _ List.mem_cons_self)
      rw [windowBytes_concat, if_neg fun hin => absurd hp (not_lt.mpr hin.1), add_zero]
      exact ih fun q hq => h q (List.mem_append_left _ hq)

theorem rate_eq (interval bytes : ℤ) : rate interval bytes = 8 * bytes / (interval * 1000) := by
  unfold rate
  rw [div_mul_eq_mul_div, div_div, mul_comm (bytes : ℚ)]

variable {starts : List ℤ}

/-- The windows that are closed, whose rates stand in `s`, and which end before `bound`. -/
structure Closed (interval : ℤ) (l : List Capture) (starts : List ℤ) (bound : ℤ) (s : Speed) :
    Prop where
  disjoint : starts.Pairwise fun t t' => t + interval ≤ t'
  past : ∀ t ∈ starts, t + interval ≤ bound
  samples : s.reported.map Prod.snd =
    starts.map fun t => (8 * windowBytes interval l t : ℚ) / (interval * 1000)
  queue : s.q = lastRates queueSize (s.reported.map Prod.snd)

structure Current (interval : ℤ) (l : List Capture) (s : Speed) : Prop where
  clock : 0 ≤ s.start
  nxtEnd : s.nxtEnd = s.start + interval
  before : ∀ p ∈ handledCaptures l, p.now < s.nxtEnd
  pending : s.totIppktLen = windowBytes interval l s.start

structure Metering (interval : ℤ) (l : List Capture) (starts : List ℤ) (s : Speed) : Prop where
  fresh : handledCaptures l = [] → s = Speed.new ∧ starts = []
  current : handledCaptures l ≠ [] → Current interval l s ∧ Closed interval l starts s.start s
  last : ∀ p ∈ (handledCaptures l).getLast?, s.start ≤ p.now

theorem Closed.mono {bound bound' : ℤ} (c : Closed interval l starts bound s) (h : bound ≤ bound') :
    Closed interval l starts bound' s :=
  ⟨c.disjoint, fun t ht => (c.past t ht).trans h, c.samples, c.queue⟩

theorem Closed.concat {bound : ℤ} (c : Closed interval l starts bound s) (h : bound ≤ p.now)
    (hreported : s'.reported = s.reported) (hq : s'.q = s.q) :
    Closed interval (l ++ [p]) starts bound s' := by
  refine ⟨c.disjoint, c.past, ?_, ?_⟩
  · rw [hreported, c.samples]
    refine List.map_congr_left fun t ht => ?_
    rw [windowBytes_later ((c.past t ht).trans h)]
  · rw [hq, hreported, c.queue]

theorem Closed.close (hpos : 0 < interval) (c : Closed interval l starts s.start s)
    (hpending : s.totIppktLen = windowBytes interval l s.start) :
    Closed interval l (starts ++ [s.start]) (s.start + interval) (s.next interval) := by
  have hlist : (s.next interval).reported.map Prod.snd =
      s.reported.map Prod.snd ++ [rate interval s.totIppktLen] := List.map_append
  refine ⟨?_, ?_, ?_, ?_⟩
  · rw [List.pairwise_append]
    refine ⟨c.disjoint, List.pairwise_singleton _ _, fun t ht t' ht' => ?_⟩
    rw [List.mem_singleton.mp ht']
    exact c.past t ht
  · intro t ht
    rcases List.mem_append.mp ht with ht | ht
    · exact (c.past t ht).trans (by omega)
    · rw [List.mem_singleton.mp ht]
  · rw [hlist, c.samples, hpending, rate_eq, List.map_append]
    rfl
  · rw [hlist]
    change pushRate s.q (rate interval s.totIppktLen) = _
    rw [c.queue, pushRate_lastRates]

theorem Metering.opened (m : Metering interval l starts s) (hpos : 0 < interval) {now : ℤ}
    (hnow : 0 ≤ now) (hle : ∀ p ∈ handledCaptures l, p.now ≤ now) :
    ∃ w, s.openWindow (2 * interval) interval now = w ∧ Current interval l w ∧
      Closed interval l starts w.start w ∧ w.start ≤ now ∧ now < w.start + 2 * interval := by
  by_cases hempty : handledCaptures l = []
  · obtain ⟨rfl, rfl⟩ := m.fresh hempty
    have hnone : ∀ t, windowBytes interval l t = 0 := by
      intro t
      apply windowBytes_eq_zero
      rw [hempty]
      exact fun _ hp => absurd hp List.not_mem_nil
    refine ⟨_, Speed.openWindow_first hpos now rfl, ⟨hnow, rfl, ?_, (hnone now).symm⟩,
      ⟨List.Pairwise.nil, fun _ ht => absurd ht List.not_mem_nil, rfl, rfl⟩, le_rfl, ?_⟩
    · rw [hempty]
      exact fun _ hp => absurd hp List.not_mem_nil
    · change now < now + 2 * interval
      omega
  · obtain ⟨c, hclosed⟩ := m.current hempty
    have hclock := c.clock
    have hend := c.nxtEnd
    have hstart : s.start ≠ -1 := by omega
    have hlow : s.start ≤ now := by
      have hlast := List.getLast?_eq_some_getLast hempty
      exact (m.last _ hlast).trans (hle _ (List.getLast_mem hempty))
    by_cases hlate : 2 * interval ≤ now - s.start
    -- all packets are before the end of the old window, and that is before the new one
    · have hbefore : ∀ p ∈ handledCaptures l, p.now < now := fun p hp =>
        (c.before p hp).trans_le (by omega)
      refine ⟨_, Speed.openWindow_late hstart hlate, ⟨hnow, rfl, fun p hp => ?_,
        (windowBytes_eq_zero hbefore).symm⟩, ?_, le_rfl, ?_⟩
      · exact (hbefore p hp).trans (by change now < now + interval; omega)
      · have hmoved := hclosed.mono hlow
        exact ⟨hmoved.disjoint, hmoved.past, hmoved.samples, hmoved.queue⟩
      · change now < now + 2 * interval
        omega
    · refine ⟨_, Speed.openWindow_same hstart hlate, ⟨c.clock, c.nxtEnd, c.before, c.pending⟩,
        ⟨hclosed.disjoint, hclosed.past, hclosed.samples, hclosed.queue⟩, hlow, ?_⟩
      change now < s.start + 2 * interval
      omega

theorem Current.next (hpos : 0 < interval) (c : Current interval l s) :
    Current interval l (s.next interval) := by
  have hend := c.nxtEnd
  refine ⟨?_, ?_, fun p hp => ?_, ?_⟩
  · have := c.clock
    change 0 ≤ s.start + interval
    omega
  · change s.nxtEnd + interval = s.start + interval + interval
    rw [hend]
  · have := c.before p hp
    change p.now < s.nxtEnd + interval
    omega
  · have hbefore : ∀ p ∈ handledCaptures l, p.now < s.start + interval := hend ▸ c.before
    exact (windowBytes_eq_zero hbefore).symm

theorem Current.count (c : Current interval l s) (hclosed : Closed interval l starts s.start s)
    (hlen : (ipHeader p).2 = some len) (hlow : s.start ≤ p.now) (hlt : p.now < s.nxtEnd) :
    Metering interval (l ++ [p]) starts (s.counted len) := by
  have hhandled := handledCaptures_some hlen l
  refine ⟨fun hnone => ?_, fun _ => ⟨⟨c.clock, c.nxtEnd, fun e he => ?_, ?_⟩, ?_⟩, fun e he => ?_⟩
  · rw [hhandled] at hnone
    exact absurd hnone (List.append_ne_nil_of_right_ne_nil _ (List.cons_ne_nil _ _))
  · rw [hhandled] at he
    rcases List.mem_append.mp he with he | he
    · exact c.before e he
    · rwa [List.mem_singleton.mp he]
  · change s.totIppktLen + (len - packetHeader) = windowBytes interval (l ++ [p]) s.start
    rw [windowBytes_mem hlen hlow (c.nxtEnd ▸ hlt), c.pending]
  · exact hclosed.concat hlow rfl rfl
  · rw [hhandled, List.getLast?_concat] at he
    rwa [← Option.some.inj he]

theorem Metering.step_some (m : Metering interval l starts s) (hpos : 0 < interval)
    (hlen : (ipHeader p).2 = some len) (hnow : 0 ≤ p.now)
    (hle : ∀ e ∈ handledCaptures l, e.now ≤ p.now) :
    Metering interval (l ++ [p]) (starts ++ s.closed interval p)
      ((s.window interval p.now).counted len) := by
  obtain ⟨w, hw, c, hclosed, hlow, hlt⟩ := m.opened hpos hnow hle
  have hend := c.nxtEnd
  have hsome : (ipHeader p).2.isSome := by
    rw [hlen]
    rfl
  rw [Speed.window, Speed.closed, hw]
  by_cases hclose : w.nxtEnd ≤ p.now
  · rw [if_pos hclose, if_pos ⟨hsome, hclose⟩]
    have hlow' : (w.next interval).start ≤ p.now := by
      change w.start + interval ≤ p.now
      omega
    have hlt' : p.now < (w.next interval).nxtEnd := by
      change p.now < w.nxtEnd + interval
      omega
    exact (c.next hpos).count (hclosed.close hpos c.pending) hlen hlow' hlt'
  · rw [if_neg hclose, if_neg fun h => hclose h.2, List.append_nil]
    exact c.count hclosed hlen hlow (not_le.mp hclose)

theorem Metering.step_none (m : Metering interval l starts s) (hlen : (ipHeader p).2 = none) :
    Metering interval (l ++ [p]) (starts ++ s.closed interval p) s := by
  have hstarts : s.closed interval p = [] := by
    rw [Speed.closed, hlen]
    rfl
  have hsame := handledCaptures_none hlen l
  rw [hstarts, List.append_nil]
  refine ⟨hsame ▸ m.fresh, ?_, hsame ▸ m.last⟩
  rw [hsame]
  intro hne
  obtain ⟨c, hclosed⟩ := m.current hne
  refine ⟨⟨c.clock, c.nxtEnd, hsame ▸ c.before, ?_⟩, hclosed.disjoint, hclosed.past, ?_,
    hclosed.queue⟩
  · rw [windowBytes_none hlen]
    exact c.pending
  · rw [hclosed.samples]
    refine List.map_congr_left fun t _ => ?_
    rw [windowBytes_none hlen]

theorem Metering.step {lines : List Line} (m : Metering interval l starts s) (hpos : 0 < interval)
    (hclock : ∀ e ∈ handledCaptures (l ++ [p]), 0 ≤ e.now)
    (hmono : (handledCaptures (l ++ [p])).Pairwise fun e e' => e.now ≤ e'.now)
    (hs : handleIp interval s p = .ok (lines, s')) :
    Metering interval (l ++ [p]) (starts ++ s.closed interval p) s' := by
  rcases (handleIp_eq_ok hpos hs).2 with ⟨hlen, rfl⟩ | ⟨len, hlen, rfl⟩
  · exact m.step_none hlen
  · rw [handledCaptures_some hlen] at hclock hmono
    have hp : p ∈ handledCaptures l ++ [p] := List.mem_append_right _ List.mem_cons_self
    refine m.step_some hpos hlen (hclock p hp) fun e he => ?_
    exact (List.pairwise_append.mp hmono).2.2 e he p (List.mem_singleton.mpr rfl)

theorem Metering.exact (m : Metering interval l starts s) : WindowsExact interval l starts s := by
  by_cases hempty : handledCaptures l = []
  · obtain ⟨rfl, rfl⟩ := m.fresh hempty
    refine ⟨fun h => absurd hempty h, ?_, List.Pairwise.nil, rfl, rfl⟩
    rw [hempty]
    exact fun _ hp => nomatch hp
  · obtain ⟨c, hclosed⟩ := m.current hempty
    refine ⟨fun _ => c.nxtEnd, fun p hp => ⟨m.last p hp, ?_⟩, hclosed.disjoint, hclosed.samples,
      hclosed.queue⟩
    exact c.before p (List.mem_of_getLast? hp)

end MeasurementLimiter.MeasureRate
