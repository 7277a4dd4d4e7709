import MeasurementLimiter.TsfConservation

namespace MeasurementLimiter

variable {K : Kernel} {now toks : ℤ} {skb p : Skb} {ret : NetXmit} {k k' : Ring} {q q' : Tsf}

def Tsf.Stores (q : Tsf) (p : Skb) : Prop :=
  p ∈ q.kfifo.packets ∨ p ∈ q.qdisc.skbs ∨ p ∈ q.testQdisc.skbs

instance (q : Tsf) (p : Skb) : Decidable (q.Stores p) := by
  unfold Tsf.Stores
  infer_instance

/-- The inner queue refuses the packet that it is given for lack of tokens, behind the parked
packets that the tokens do not pay for. -/
def Tsf.ParkRefused (K : Kernel) (skb : Skb) (q : Tsf) : Prop :=
  skb.daddr = deip ∧ ¬Segments K skb q ∧
    let toks := enqueueToks q (q.now K)
    let (left, rest) := uncovered q.rate toks q.qdisc.skbs
    RingAccepts (covered q.rate toks q.qdisc.skbs) q.kfifo ∧
      left - q.rate.l2tNs skb.pktLen < 0 ∧ q.qdisc.verdict rest skb ≠ .success

theorem Circular.mem_enqueue (h : Circular k) (heq : kfifoEnqueue (some skb) k = .ok (ret, k')) :
    p ∈ k'.packets ↔ p ∈ k.packets ∨ (ret = .success ∧ p = skb) := by
  rw [h.packets_enqueue heq, Multiset.mem_add]
  by_cases hret : ret = .success
  · simp [hret]
  · simp [hret]

theorem stores_afterRing (h : Circular q.kfifo)
    (heq : kfifoEnqueue (some skb) q.kfifo = .ok (ret, k)) :
    (q.afterRing now skb ret k).Stores p ↔ q.Stores p ∨ (ret = .success ∧ p = skb) := by
  change p ∈ k.packets ∨ p ∈ q.qdisc.skbs ∨ p ∈ q.testQdisc.skbs ↔ _
  rw [h.mem_enqueue heq, Tsf.Stores]
  tauto

theorem stores_park :
    (tsfPark skb q).2.Stores p ↔ q.Stores p ∨ ((tsfPark skb q).1 = .success ∧ p = skb) := by
  rcases tsfPark_cases skb q with ⟨-, hp⟩ | ⟨ret, -, hne, hp⟩
  · rw [hp]
    change p ∈ q.kfifo.packets ∨ p ∈ q.qdisc.skbs ++ [skb] ∨ p ∈ q.testQdisc.skbs ↔ _
    rw [List.mem_append, List.mem_singleton, Tsf.Stores]
    tauto
  · rw [hp]
    change q.Stores p ↔ q.Stores p ∨ (ret = .success ∧ p = skb)
    simp [hne]

theorem stores_bypass :
    (tsfBypass skb q).2.Stores p ↔ q.Stores p ∨ ((tsfBypass skb q).1 = .success ∧ p = skb) := by
  rcases tsfBypass_cases skb q with hb | ⟨ret, hne, hb⟩
  · rw [hb]
    change p ∈ q.kfifo.packets ∨ p ∈ q.qdisc.skbs ∨ p ∈ q.testQdisc.skbs ++ [skb] ↔ _
    rw [List.mem_append, List.mem_singleton, Tsf.Stores]
    tauto
  · rw [hb]
    change q.Stores p ↔ q.Stores p ∨ (ret = .success ∧ p = skb)
    simp [hne]

theorem stores_promoted {l : List Skb} (h : Circular q.kfifo) (hl : q.qdisc.skbs = skb :: l)
    (heq : kfifoEnqueue (some skb) q.kfifo = .ok (.success, k))
    (hp : (q.promoted now toks skb l k).Stores p) : q.Stores p := by
  change p ∈ k.packets ∨ p ∈ l ∨ p ∈ q.testQdisc.skbs at hp
  rw [h.mem_enqueue heq] at hp
  rw [Tsf.Stores, hl, List.mem_cons]
  tauto

theorem stores_lost {l : List Skb} (h : Circular q.kfifo) (hl : q.qdisc.skbs = skb :: l)
    (hne : ret ≠ .success) (heq : kfifoEnqueue (some skb) q.kfifo = .ok (ret, k))
    (hp : (q.lost now skb l ret k).Stores p) : q.Stores p := by
  change p ∈ k.packets ∨ p ∈ l ∨ p ∈ q.testQdisc.skbs at hp
  rw [h.mem_enqueue heq] at hp
  rw [Tsf.Stores, hl, List.mem_cons]
  tauto

/-- In the loop over the segments: one is counted exactly when one is stored. -/
structure Honest (segs₀ segs : List Skb) (nb : ℕ) (q : Tsf) : Prop where
  circular : Circular q.kfifo
  subset : ∀ seg ∈ segs, seg ∈ segs₀
  counted : 0 < nb ↔ ∃ p ∈ segs₀.map markSegment, q.Stores p

theorem Honest.step {segs₀ segs : List Skb} {seg : Skb} {nb : ℕ} (h : Honest segs₀ (seg :: segs) nb q)
    (heq : tsfSegmentOne K seg q = .ok (ret, q')) :
    Honest segs₀ segs (if ret = .success then nb + 1 else nb) q' := by
  have hmem : markSegment seg ∈ segs₀.map markSegment :=
    List.mem_map_of_mem (h.subset seg List.mem_cons_self)
  suffices Circular q'.kfifo ∧
      ∀ p, q'.Stores p ↔ q.Stores p ∨ (ret = .success ∧ p = markSegment seg) by
    obtain ⟨hcirc, hstores⟩ := this
    refine ⟨hcirc, fun seg hseg => h.subset seg (List.mem_cons_of_mem _ hseg), ?_⟩
    have hcounted := h.counted
    simp only [hstores]
    by_cases hret : ret = .success
    · rw [if_pos hret]
      exact iff_of_true (Nat.succ_pos nb) ⟨markSegment seg, hmem, .inr ⟨hret, rfl⟩⟩
    · simpa [hret] using hcounted
  rcases tsfSegmentOne_cases heq with ⟨-, k, hk, rfl⟩ | ⟨-, rfl, rfl⟩
  · refine ⟨h.circular.of_enqueue hk, fun p => ?_⟩
    have hstores : (q.tick.afterRing (q.now K) (markSegment seg) ret k).Stores p ↔
        q.tick.Stores p ∨ (ret = .success ∧ p = markSegment seg) :=
      stores_afterRing h.circular hk
    exact hstores
  · refine ⟨?_, fun p => stores_park (q := q.tick)⟩
    have hkfifo := tsfPark_kfifo (markSegment seg) q.tick
    exact hkfifo ▸ h.circular

theorem segment_honest (h : Circular q.kfifo)
    (hnew : ∀ p ∈ (K.skbGsoSegment skb).map markSegment, ¬q.Stores p)
    (heq : tsfSegment K skb q = .ok (ret, q')) :
    ret = .success ↔ ∃ p ∈ (K.skbGsoSegment skb).map markSegment, q'.Stores p := by
  by_cases hnil : K.skbGsoSegment skb = []
  · rw [tsfSegment_nil hnil] at heq
    obtain ⟨rfl, -⟩ := Prod.mk.inj (Except.ok.inj heq)
    simp [hnil]
  · rw [tsfSegment_cons hnil] at heq
    split at heq
    · cases heq
    · rename_i nb q₁ hloop
      obtain ⟨rfl, rfl⟩ := Prod.mk.inj (Except.ok.inj heq)
      have hbegin : Honest (K.skbGsoSegment skb) (K.skbGsoSegment skb) 0
          (q.beginSegments (K.skbGsoSegment skb)) := by
        refine ⟨h, fun _ hseg => hseg, iff_of_false (lt_irrefl 0) ?_⟩
        rintro ⟨p, hp, hstored⟩
        exact hnew p hp hstored
      have hend := tsfSegmentLoop_rule (I := Honest (K.skbGsoSegment skb))
        (fun _ _ _ _ _ _ hI hone => hI.step hone) hbegin hloop
      obtain ⟨n, b, hq⟩ := endSegments_eq q₁ skb (K.skbGsoSegment skb) nb
      rw [hq]
      refine Iff.trans ?_ hend.counted
      by_cases hnb : 0 < nb
      · simp [hnb]
      · simp [hnb]

theorem plain_honest_iff {left : ℤ} {rest : List Skb} (h : Circular q.kfifo)
    (hd : skb.daddr = deip) (hs : ¬Segments K skb q) (hnew : ¬q.Stores skb)
    (hrest : uncovered q.rate (enqueueToks q (q.now K)) q.qdisc.skbs = (left, rest))
    (heq : tsfPlain K skb q = .ok (ret, q')) :
    (ret = .success ↔ q'.Stores skb) ↔ ¬q.ParkRefused K skb := by
  have hpark : q.ParkRefused K skb ↔
      RingAccepts (covered q.rate (enqueueToks q (q.now K)) q.qdisc.skbs) q.kfifo ∧
        left - q.rate.l2tNs skb.pktLen < 0 ∧ q.qdisc.verdict rest skb ≠ .success := by
    simp only [Tsf.ParkRefused, hrest]
    tauto
  rw [hpark]
  refine tsfPlain_routed (I := fun _ q₁ => Circular q₁.kfifo ∧ ¬q₁.Stores skb)
    (J := fun ret q' => (ret = .success ↔ q'.Stores skb) ↔ ¬(RingAccepts _ _ ∧ _ ∧ _))
    hrest rfl ⟨h, hnew⟩ ?_ ?_ ?_ ?_ heq
  · rintro toks q₁ p l k ⟨hcirc, hnone⟩ hl - hk
    exact ⟨hcirc.of_enqueue hk, fun hp => hnone (stores_promoted hcirc hl hk hp)⟩
  · rintro toks q₁ p l ret k ⟨hcirc, hnone⟩ hrefused hl hne hk
    have hnone' : ¬(q₁.lost (q.now K) p l ret k).Stores skb := fun hp =>
      hnone (stores_lost hcirc hl hne hk hp)
    exact iff_of_true (iff_of_false hne hnone') fun hpark => hrefused hpark.1
  · rintro q₁ ret k ⟨hcirc, hnone⟩ - - hpos - hk
    have hstores : (q₁.afterRing (q.now K) skb ret k).Stores skb ↔ ret = .success := by
      rw [stores_afterRing hcirc hk]
      tauto
    refine iff_of_true hstores.symm fun hpark => ?_
    exact absurd hpos (not_le.mpr hpark.2.1)
  -- this branch answers success whatever the inner queue said
  · rintro q₁ expiry ⟨-, hnone⟩ hall hskbs hverdict hneg
    have hstores : (tsfPark skb q₁).2.Stores skb ↔ q.qdisc.verdict rest skb = .success := by
      rw [stores_park, ← hskbs, ← hverdict]
      rcases tsfPark_cases skb q₁ with ⟨hv, hp⟩ | ⟨ret, hv, hne, hp⟩
      · simp [hp, hv]
      · simp [hp, hv, hne, hnone]
    change (NetXmit.success = .success ↔ (tsfPark skb q₁).2.Stores skb) ↔ _
    rw [hstores]
    constructor
    · intro hv hpark
      exact hpark.2.2 (hv.mp rfl)
    · intro hpark
      refine iff_of_true rfl ?_
      by_contra hv
      exact hpark ⟨hall, hneg, hv⟩

/-- `tsf_enqueue` answers `NET_XMIT_SUCCESS` exactly when the packet or one of its segments is
stored, unless the inner queue refuses the packet. -/
theorem enqueue_honest_iff (h : Circular q.kfifo) (hnew : ∀ p ∈ brought K skb q, ¬q.Stores p)
    (heq : tsfEnqueue K skb q = .ok (ret, q')) :
    (ret = .success ↔ ∃ p ∈ brought K skb q, q'.Stores p) ↔ ¬q.ParkRefused K skb := by
  by_cases hd : skb.daddr = deip
  · by_cases hs : Segments K skb q
    · rw [tsfEnqueue_segment hd hs] at heq
      refine iff_of_true ?_ fun hpark => hpark.2.1 hs
      by_cases hnil : K.skbGsoSegment skb = []
      · rw [brought, if_neg (by simp [hnil])] at hnew ⊢
        rw [tsfSegment_nil hnil] at heq
        obtain ⟨rfl, rfl⟩ := Prod.mk.inj (Except.ok.inj heq)
        refine iff_of_false (by decide) ?_
        rintro ⟨p, hp, hstored⟩
        exact hnew p hp hstored
      · rw [brought, if_pos ⟨hd, hs, hnil⟩] at hnew ⊢
        exact segment_honest h hnew heq
    · rw [tsfEnqueue_plain hd hs] at heq
      rw [brought, if_neg (by simp [hs])] at hnew ⊢
      simpa using plain_honest_iff h hd hs (hnew skb List.mem_cons_self) rfl heq
  · rw [tsfEnqueue, if_pos hd] at heq
    rw [brought, if_neg (by simp [hd])] at hnew ⊢
    have hbypass : tsfBypass skb q = (ret, q') := Except.ok.inj heq
    have hstores : (tsfBypass skb q).2.Stores skb ↔ _ := stores_bypass
    have hnone := hnew skb List.mem_cons_self
    rw [hbypass] at hstores
    refine iff_of_true ?_ fun hpark => hd hpark.1
    simp only [List.mem_singleton, exists_eq_left, hstores]
    tauto

theorem enqueue_honest_iff_sample :
    ∃ q', tsfEnqueue (pairSample 3 1400 500) (skbSample 9 2800)
        (tsfSample (pairSample 3 1400 500) 1000000000) = .ok (.success, q') ∧
      q'.qdisc.skbs = [skbSample 1 1400] ∧
      ((NetXmit.success = .success ↔ ∃ p ∈ brought (pairSample 3 1400 500) (skbSample 9 2800)
            (tsfSample (pairSample 3 1400 500) 1000000000), q'.Stores p) ↔
        ¬(tsfSample (pairSample 3 1400 500) 1000000000).ParkRefused (pairSample 3 1400 500)
          (skbSample 9 2800)) := by
  have hfresh := tsfInit_fresh (tsfSample_init (pairSample 3 1400 500) 1000000000)
  obtain ⟨⟨ret, q'⟩, heq, hq⟩ := Runs.exists_ok (fun r => (r.1, r.2.qdisc.skbs))
    (b := (.success, [skbSample 1 1400]))
    (show (tsfEnqueue (pairSample 3 1400 500) (skbSample 9 2800)
      (tsfSample (pairSample 3 1400 500) 1000000000)).toOption.map _ = _ by decide +kernel)
  obtain ⟨rfl, hskbs⟩ := Prod.mk.inj hq
  exact ⟨q', heq, hskbs, enqueue_honest_iff hfresh.ring.toCircular (by decide +kernel) heq⟩

/-- At 100 kB/s the inner queue takes 1000 bytes, and a segment of 900 bytes waits there. -/
def starvedSample : Tsf :=
  tsfSampleAfter (kernelSample 3 [skbSample 2 900]) 100000 [.enqueue (skbSample 9 2800)]

theorem starvedSample_run : Runs.Run (tsfStep (kernelSample 3 [skbSample 2 900]))
    (tsfSample (kernelSample 3 [skbSample 2 900]) 100000)
    [(.enqueue (skbSample 9 2800), .verdict .success)] starvedSample :=
  tsfSampleAfter_run (by decide +kernel)

/-- The next packet finds no room there.  It is reported as stored, and waits to be freed. -/
theorem refused_packet_reported :
    (∃ h, Runs.Run (tsfStep (kernelSample 3 [skbSample 2 900]))
      (tsfSample (kernelSample 3 [skbSample 2 900]) 100000) h starvedSample) ∧
    ∃ q', tsfEnqueue (kernelSample 3 [skbSample 2 900]) (skbSample 1 1400) starvedSample =
        .ok (.success, q') ∧
      q'.toFree = [skbSample 1 1400] ∧
      ¬∃ p ∈ brought (kernelSample 3 [skbSample 2 900]) (skbSample 1 1400) starvedSample,
        q'.Stores p := by
  obtain ⟨⟨ret, q'⟩, heq, hq⟩ := Runs.exists_ok
    (fun r : NetXmit × Tsf => (r.1, r.2.toFree, decide (r.2.Stores (skbSample 1 1400))))
    (b := (.success, [skbSample 1 1400], false))
    (show (tsfEnqueue (kernelSample 3 [skbSample 2 900]) (skbSample 1 1400)
      starvedSample).toOption.map _ = _ by decide +kernel)
  obtain ⟨rfl, hrest⟩ := Prod.mk.inj hq
  obtain ⟨hfree, hnone⟩ := Prod.mk.inj hrest
  have hbrought : brought (kernelSample 3 [skbSample 2 900]) (skbSample 1 1400) starvedSample =
      [skbSample 1 1400] := by decide +kernel
  refine ⟨⟨_, starvedSample_run⟩, q', heq, hfree, ?_⟩
  rw [hbrought]
  simpa using hnone

end MeasurementLimiter
