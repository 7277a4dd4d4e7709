import MeasurementLimiter.TsfConservation

namespace MeasurementLimiter

variable {K : Kernel} {skb : Skb} {ret : NetXmit} {q₀ q q' : Tsf}

def Tsf.queued (q : Tsf) : Multiset Skb := q.kfifo.packets + (q.qdisc.skbs : Multiset Skb)

def bytesOf (l : List Skb) : ℕ := (l.map Skb.pktLen).sum

/-- The parents counted the packet `skb`, and now count the packets that the queues gained in
its place, if there are any. -/
def ParentsTold (skb : Skb) (q q' : Tsf) : Prop :=
  ∀ gained : List Skb, q'.queued = q.queued + (gained : Multiset Skb) → 1 ≤ gained.length →
    q'.parentQlen = q.parentQlen + (gained.length - 1) ∧
    q'.parentBacklog = q.parentBacklog + (bytesOf gained - skb.pktLen)

/-- The segments that the ring `k` accepts where the balance pays for them, and that the inner
queue, which holds `l`, accepts where it does not. -/
def storedSegs (verdict : List Skb → Skb → NetXmit) : Ring → List Skb → List Route → List Skb
  | _, _, [] => []
  | k, l, .ring seg :: r =>
    match kfifoEnqueue (some seg) k with
    | .ok (.success, k) => seg :: storedSegs verdict k l r
    | _ => storedSegs verdict k l r
  | k, l, .park seg :: r =>
    if verdict l seg = .success then seg :: storedSegs verdict k (l ++ [seg]) r
    else storedSegs verdict k l r

/-- Several segments are stored and have the bytes of all, or one that has those of the
packet. -/
def Tsf.TellsParents (K : Kernel) (skb : Skb) (q : Tsf) : Prop :=
  let segs := K.skbGsoSegment skb
  let stored := storedSegs q.qdisc.verdict q.kfifo q.qdisc.skbs (routes K segs q)
  stored = [] ∨ (stored.length = 1 ∧ bytesOf stored = skb.pktLen) ∨
    (1 < stored.length ∧ bytesOf stored = bytesOf (segs.map markSegment))

instance (K : Kernel) (skb : Skb) (q : Tsf) : Decidable (q.TellsParents K skb) := by
  unfold Tsf.TellsParents
  infer_instance

/-- In the loop over the segments: `nb` of them are stored, and no counter of the parents has
changed. -/
structure Storing (K : Kernel) (q₀ : Tsf) (segs₀ segs : List Skb) (nb : ℕ) (q : Tsf) : Prop where
  circular : Circular q.kfifo
  parentQlen : q.parentQlen = q₀.parentQlen
  parentBacklog : q.parentBacklog = q₀.parentBacklog
  stored : ∃ l : List Skb, nb = l.length ∧ q.queued = q₀.queued + (l : Multiset Skb) ∧
    storedSegs q₀.qdisc.verdict q₀.kfifo q₀.qdisc.skbs (routes K segs₀ q₀) =
      l ++ storedSegs q.qdisc.verdict q.kfifo q.qdisc.skbs (routes K segs q)

theorem Storing.snoc {segs₀ segs : List Skb} {seg p : Skb} {nb : ℕ}
    (s : Storing K q₀ segs₀ (seg :: segs) nb q) (hcirc : Circular q'.kfifo)
    (hqlen : q'.parentQlen = q.parentQlen) (hbacklog : q'.parentBacklog = q.parentBacklog)
    (hqueued : q'.queued = q.queued + {p})
    (hsegs : storedSegs q.qdisc.verdict q.kfifo q.qdisc.skbs (routes K (seg :: segs) q) =
      p :: storedSegs q'.qdisc.verdict q'.kfifo q'.qdisc.skbs (routes K segs q')) :
    Storing K q₀ segs₀ segs (nb + 1) q' := by
  obtain ⟨l, hnb, hl, hstored⟩ := s.stored
  refine ⟨hcirc, hqlen.trans s.parentQlen, hbacklog.trans s.parentBacklog, l ++ [p], ?_, ?_, ?_⟩
  · rw [hnb, List.length_append, List.length_singleton]
  · rw [hqueued, hl, packets_snoc, add_assoc]
  · rw [hstored, hsegs, List.append_assoc, List.singleton_append]

theorem Storing.skip {segs₀ segs : List Skb} {seg : Skb} {nb : ℕ}
    (s : Storing K q₀ segs₀ (seg :: segs) nb q) (hcirc : Circular q'.kfifo)
    (hqlen : q'.parentQlen = q.parentQlen) (hbacklog : q'.parentBacklog = q.parentBacklog)
    (hqueued : q'.queued = q.queued)
    (hsegs : storedSegs q.qdisc.verdict q.kfifo q.qdisc.skbs (routes K (seg :: segs) q) =
      storedSegs q'.qdisc.verdict q'.kfifo q'.qdisc.skbs (routes K segs q')) :
    Storing K q₀ segs₀ segs nb q' := by
  obtain ⟨l, hnb, hl, hstored⟩ := s.stored
  exact ⟨hcirc, hqlen.trans s.parentQlen, hbacklog.trans s.parentBacklog, l, hnb,
    hqueued.trans hl, hsegs ▸ hstored⟩

theorem Storing.step {segs₀ segs : List Skb} {seg : Skb} {nb : ℕ}
    (s : Storing K q₀ segs₀ (seg :: segs) nb q) (heq : tsfSegmentOne K seg q = .ok (ret, q')) :
    Storing K q₀ segs₀ segs (if ret = .success then nb + 1 else nb) q' := by
  -- the number that the loop returns is the number of segments stored
  cases tsfSegmentOne_taken s.circular heq with
  | @stored k _ hk hq hroute =>
    subst hq
    have hpackets := s.circular.packets_enqueue hk
    rw [if_pos rfl] at hpackets ⊢
    refine s.snoc (p := markSegment seg) (s.circular.of_enqueue hk) rfl rfl ?_ ?_
    · change k.packets + (q.qdisc.skbs : Multiset Skb) = _
      rw [hpackets, Tsf.queued]
      abel
    · rw [hroute, storedSegs, hk]
      rfl
  | refused hne hk hq hroute =>
    subst hq
    rw [if_neg hne]
    refine s.skip s.circular rfl rfl rfl ?_
    rw [hroute, storedSegs, hk]
    cases ret with
    | success => exact absurd rfl hne
    | drop => rfl
    | cn => rfl
  | parked hv hq hroute =>
    subst hq
    rw [if_pos rfl]
    refine s.snoc (p := markSegment seg) s.circular rfl rfl ?_ ?_
    · change q.kfifo.packets + ((q.qdisc.skbs ++ [markSegment seg] : List Skb) : Multiset Skb) = _
      rw [packets_snoc, Tsf.queued, add_assoc]
    · rw [hroute, storedSegs, if_pos hv]
      rfl
  | freed hne hv hq hroute =>
    subst hq
    rw [if_neg hne]
    refine s.skip s.circular rfl rfl rfl ?_
    rw [hroute, storedSegs, if_neg hv]
    rfl

theorem bytesOf_markSegment (segs : List Skb) :
    bytesOf (segs.map markSegment) = (segs.map Skb.len).sum := by
  simp [bytesOf, markSegment, Function.comp_def]

theorem parentsTold_iff {l : List Skb} (hl : q'.queued = q.queued + (l : Multiset Skb)) :
    ParentsTold skb q q' ↔ (1 ≤ l.length → q'.parentQlen = q.parentQlen + (l.length - 1) ∧
      q'.parentBacklog = q.parentBacklog + (bytesOf l - skb.pktLen)) := by
  refine ⟨fun htold => htold l hl, fun htold gained hgained => ?_⟩
  rw [hl] at hgained
  have hperm : l.Perm gained := Multiset.coe_eq_coe.mp (add_left_cancel hgained)
  have hbytes : bytesOf l = bytesOf gained := (hperm.map Skb.pktLen).sum_eq
  rw [← hperm.length_eq, ← hbytes]
  exact htold

theorem endSegments_parents (q : Tsf) (skb : Skb) (segs : List Skb) (nb : ℕ) :
    (q.endSegments skb segs nb).parentQlen = q.parentQlen + (if 1 < nb then (nb : ℤ) - 1 else 0) ∧
      (q.endSegments skb segs nb).parentBacklog = q.parentBacklog +
        (if 1 < nb then (bytesOf (segs.map markSegment) : ℤ) - skb.pktLen else 0) := by
  rw [bytesOf_markSegment, Tsf.endSegments]
  split_ifs
  · change q.parentQlen - (1 - nb) = _ ∧ q.parentBacklog - (skb.pktLen - _) = _
    omega
  · exact ⟨(add_zero _).symm, (add_zero _).symm⟩

theorem endSegments_queued (q : Tsf) (skb : Skb) (segs : List Skb) (nb : ℕ) :
    (q.endSegments skb segs nb).queued = q.queued := by
  obtain ⟨p, b, hq⟩ := endSegments_eq q skb segs nb
  rw [hq]
  rfl

/-- The parents count what `tsf_segment` stored exactly when it stored several segments with
the bytes of all, or one with those of the packet, or none. -/
theorem parents_told_iff (h : Circular q.kfifo) (heq : tsfSegment K skb q = .ok (ret, q')) :
    ParentsTold skb q q' ↔ q.TellsParents K skb := by
  simp only [Tsf.TellsParents]
  rcases tsfSegment_cases heq with ⟨hnil, rfl⟩ | ⟨-, nb, q₁, hloop, rfl⟩
  · have hsame : Tsf.queued { q with drops := q.drops + 1, toFree := skb :: q.toFree } =
        q.queued + (([] : List Skb) : Multiset Skb) := (add_zero q.queued).symm
    rw [parentsTold_iff hsame, hnil]
    exact iff_of_true (fun hpos => absurd hpos (by decide)) (.inl rfl)
  · have hbegin : Storing K q (K.skbGsoSegment skb) (K.skbGsoSegment skb) 0
        (q.beginSegments (K.skbGsoSegment skb)) := by
      refine ⟨h, rfl, rfl, [], rfl, (add_zero _).symm, ?_⟩
      rw [routes_beginSegments]
      rfl
    have s := tsfSegmentLoop_rule
      (I := fun segs nb q₁ => Storing K q (K.skbGsoSegment skb) segs nb q₁)
      (fun _ _ _ _ _ _ s hone => s.step hone) hbegin hloop
    obtain ⟨l, hnb, hl, hstored⟩ := s.stored
    have hnone : storedSegs q₁.qdisc.verdict q₁.kfifo q₁.qdisc.skbs (routes K [] q₁) = [] := rfl
    rw [hnone, List.append_nil] at hstored
    obtain ⟨hqlen, hbacklog⟩ := endSegments_parents q₁ skb (K.skbGsoSegment skb) nb
    rw [s.parentQlen] at hqlen
    rw [s.parentBacklog] at hbacklog
    rw [parentsTold_iff ((endSegments_queued q₁ skb _ nb).trans hl), hstored, hqlen, hbacklog, hnb,
      ← List.length_eq_zero_iff]
    by_cases hmany : 1 < l.length
    · simp only [if_pos hmany, true_and]
      omega
    · simp only [if_neg hmany]
      omega

theorem parents_told_iff_sample :
    let K := pairSample 3 1400 500
    let q := tsfSample K 1000000000
    ∃ ret q', tsfSegment K (skbSample 9 2800) q = .ok (ret, q') ∧
      q'.queued = {skbSample 1 1400, skbSample 2 500} ∧ q'.parentQlen = 1 ∧
      q'.parentBacklog = -900 ∧ ParentsTold (skbSample 9 2800) q q' := by
  intro K q
  obtain ⟨⟨ret, q'⟩, heq, hq'⟩ := Runs.exists_ok
    (fun r : NetXmit × Tsf => (r.2.queued, r.2.parentQlen, r.2.parentBacklog))
    (b := ({skbSample 1 1400, skbSample 2 500}, 1, -900))
    (show (tsfSegment K (skbSample 9 2800) q).toOption.map _ = _ by decide +kernel)
  obtain ⟨hqueued, hcounts⟩ := Prod.mk.inj hq'
  obtain ⟨hqlen, hbacklog⟩ := Prod.mk.inj hcounts
  have hfresh := tsfInit_fresh (tsfSample_init K 1000000000)
  exact ⟨ret, q', heq, hqueued, hqlen, hbacklog,
    (parents_told_iff hfresh.ring.toCircular heq).mpr (by decide +kernel)⟩

/-- Of three segments the ring stores the first and refuses the second, and the third is
parked: the parents count 2300 bytes where the queues gained 1900. -/
theorem refused_segment_told :
    let K := kernelSample 0 [skbSample 1 500, skbSample 2 400, skbSample 3 1400]
    let q := tsfSample K 100000000
    tsfInit K (some (envSample 100000000)) = (0, q) ∧
      ∃ q', tsfSegment K (skbSample 9 2300) q = .ok (.success, q') ∧
        q'.queued = {skbSample 1 500, skbSample 3 1400} ∧ q'.parentQlen = q.parentQlen + 1 ∧
        q'.parentBacklog = q.parentBacklog ∧ ¬ParentsTold (skbSample 9 2300) q q' := by
  intro K q
  obtain ⟨⟨ret, q'⟩, heq, hq'⟩ := Runs.exists_ok
    (fun r : NetXmit × Tsf => (r.1, r.2.queued, r.2.parentQlen, r.2.parentBacklog))
    (b := (.success, {skbSample 1 500, skbSample 3 1400}, 1, 0))
    (show (tsfSegment K (skbSample 9 2300) q).toOption.map _ = _ by decide +kernel)
  obtain ⟨rfl, hrest⟩ := Prod.mk.inj hq'
  obtain ⟨hqueued, hcounts⟩ := Prod.mk.inj hrest
  obtain ⟨hqlen, hbacklog⟩ := Prod.mk.inj hcounts
  have hqueued : q'.queued = {skbSample 1 500, skbSample 3 1400} := hqueued
  have hempty : q.queued = 0 := by decide +kernel
  have hnone : q.parentQlen = 0 ∧ q.parentBacklog = 0 := by decide +kernel
  refine ⟨tsfSample_init K 100000000, q', heq, hqueued, ?_, ?_, fun htold => ?_⟩
  · rw [hnone.1]
    exact hqlen
  · rw [hnone.2]
    exact hbacklog
  · have hbytes := (htold [skbSample 1 500, skbSample 3 1400]
      (by rw [hqueued, hempty, zero_add]; rfl) (by decide)).2
    rw [hnone.2] at hbytes
    change q'.parentBacklog = 0 at hbacklog
    rw [hbacklog] at hbytes
    exact absurd hbytes (by decide)

end MeasurementLimiter
