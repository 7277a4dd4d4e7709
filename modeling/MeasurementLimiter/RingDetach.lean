import MeasurementLimiter.RingLinked

namespace MeasurementLimiter

open Chains Runs

variable {k k' : LinkedRing} {L : ℕ → List Skb} {p skb : Skb}

def Kfifo.Holding (k : LinkedRing) (x : Skb) : Prop :=
  ∃ i < k.totalTime, ∃ head, (k.node i).kunit.head = some head ∧ Reaches k.links head x

/-- The packet `p` has `next = NULL`, and no packet of the ring is reached from it. -/
structure Kfifo.Detached (k : LinkedRing) (p : Skb) : Prop where
  unlinked : k.links p = none
  apart : ∀ x, Reaches k.links p x → ¬k.Holding x

theorem Represents.holding_iff (r : Represents k L) {x : Skb} :
    k.Holding x ↔ ∃ i < k.totalTime, x ∈ L i := by
  have hnode : ∀ i < k.totalTime,
      (∃ head, (k.node i).kunit.head = some head ∧ Reaches k.links head x) ↔ x ∈ L i := by
    intro i hi
    have hchain := r.holds i hi
    rw [hchain.head_eq]
    cases hl : L i with
    | nil => simp
    | cons a l =>
      have hlinked : Linked k.links (a :: l) := hl ▸ hchain.linked
      simp only [List.head?_cons, Option.some.injEq, exists_eq_left']
      exact hlinked.reaches_iff
  constructor
  · rintro ⟨i, hi, hx⟩
    exact ⟨i, hi, (hnode i hi).mp hx⟩
  · rintro ⟨i, hi, hx⟩
    exact ⟨i, hi, (hnode i hi).mpr hx⟩

theorem Represents.detached_iff (r : Represents k L) (hp : ∀ i < k.totalTime, p ∉ L i) :
    k.Detached p ↔ k.links p = none := by
  refine ⟨Kfifo.Detached.unlinked, fun hend => ⟨hend, fun x hx hhold => ?_⟩⟩
  have hlinked : Linked k.links [p] := hend
  obtain rfl := List.mem_singleton.mp (hlinked.reaches_iff.mp hx)
  obtain ⟨i, hi, hmem⟩ := r.holding_iff.mp hhold
  exact hp i hi hmem

section Take

variable {M U : Type} [Kunit M U] (k : Kfifo M U)

theorem kfifoTake_links : (kfifoTake k).2.links = k.links := by
  unfold kfifoTake
  split <;> rfl

theorem kfifoTake_packet :
    (kfifoTake k).1 = (Kunit.dequeueHead k.links (k.node k.pread).kunit).1 := by
  unfold kfifoTake
  split
  · rename_i heq
    rw [heq]
  · rename_i heq
    rw [heq]

theorem kfifoFinish_links : (kfifoFinish k).2.links = k.links := by
  unfold kfifoFinish
  split <;> rfl

end Take

def Alone (k : LinkedRing) : RingCall → Prop
  | .dequeue => k.Owes ∨ ∀ j < k.totalTime, ∀ i, k.follow j = some i →
      (∀ m < j, ∀ i', k.follow m = some i' → (k.node i').pkt = 0) → (k.node i).pkt ≤ 1
  | _ => True

theorem alone_iff (h : Circular k) {e : ℕ} (w : ReadWalk k e) (hpkt : 0 < (k.nth e).pkt) :
    Alone k .dequeue ↔ (k.nth e).pkt ≤ 1 := by
  have hlt := h.span_lt
  have hle := w.le_span
  constructor
  · rintro (⟨hzero, howed⟩ | hall)
    · rw [← h.nth_zero] at hzero howed
      rcases Nat.eq_zero_or_pos e with rfl | hpos
      · omega
      · have := w.paid hpos
        omega
    · refine hall e (by omega) _ (h.follow_eq (by omega)) fun m hm i' hi' => ?_
      rw [h.follow_eq (by omega)] at hi'
      obtain rfl := Option.some.inj hi'
      exact w.drained m hm
  · refine fun hone => .inr fun j hj i hi hbefore => ?_
    rw [h.follow_eq hj.le] at hi
    obtain rfl := Option.some.inj hi
    rcases lt_trichotomy j e with hlt | rfl | hgt
    · exact (w.drained j hlt).le.trans zero_le_one
    · exact hone
    · have : (k.nth e).pkt = 0 := hbefore e hgt _ (h.follow_eq (by omega))
      omega

theorem alone_of_single (h : Circular k) (hone : ∀ j < k.totalTime, (k.nth j).pkt ≤ 1) :
    Alone k .dequeue := by
  refine .inr fun j hj i hi _ => ?_
  rw [h.follow_eq hj.le] at hi
  obtain rfl := Option.some.inj hi
  exact hone j hj

/-- `kfifo_dequeue` writes no link, and the packet it returns is unlinked if and only if it
was alone on its node. -/
theorem Represents.dequeue_links (r : Represents k L) (hinv : RingInv (k.plain L)) {o : Option Skb}
    (heq : kfifoDequeue k = .ok (o, k')) :
    k'.links = k.links ∧ ((∀ p, o = some p → k.links p = none) ↔ Alone k .dequeue) := by
  have h : Circular k := ⟨hinv.two_le, hinv.next_eq, hinv.pread_lt, hinv.pwrite_lt⟩
  have hlt := h.span_lt
  obtain ⟨e, w, ⟨hpkt, hd⟩ | ⟨hpkt, hd, hstop⟩⟩ := kfifoDequeue_cases h
  · have hle := w.le_span
    rw [hd] at heq
    have htake := Except.ok.inj heq
    have hlinks := kfifoTake_links (k.walk e)
    have hpacket := kfifoTake_packet (k.walk e)
    rw [htake] at hlinks hpacket
    refine ⟨hlinks, ?_⟩
    have hholds := r.holds (k.pos e) (h.pos_lt (by omega))
    have hhead : o = (L (k.pos e)).head? := hpacket.trans (kunitDequeueHead_holds hholds).1
    have hlen : (k.nth e).pkt = (L (k.pos e)).length := hinv.pkt_eq e (show e < k.totalTime by omega)
    rw [alone_iff h w hpkt, hlen, hhead]
    rw [hlen] at hpkt
    have hlinked := hholds.linked
    cases hl : L (k.pos e) with
    | nil => simp [hl] at hpkt
    | cons a l =>
      rw [hl] at hlinked
      have hnext : k.links a = l.head? := hlinked.next_head
      cases l <;> simp [hnext]
  · rw [hd] at heq
    obtain ⟨rfl, rfl⟩ := Prod.mk.inj (Except.ok.inj heq)
    refine ⟨rfl, iff_of_true (fun p hp => nomatch hp) ?_⟩
    rcases hstop with ⟨-, howes⟩ | ⟨rfl, -⟩
    · exact .inl howes
    · refine alone_of_single h fun j hj => Nat.le_succ_of_le (Nat.le_of_eq ?_)
      rcases lt_trichotomy j k.span with hj' | rfl | hj'
      · exact w.drained j hj'
      · exact hpkt
      · have hlen := hinv.pkt_eq j hj
        rwa [hinv.ahead j hj' hj] at hlen

theorem Represents.enqueue_links (r : Represents k L) (h : Circular k) {ret : NetXmit}
    (heq : kfifoEnqueue (some skb) k = .ok (ret, k')) (hne : p ≠ skb)
    (hp : ∀ i < k.totalTime, p ∉ L i) : k'.links p = k.links p := by
  rcases kfifoEnqueue_cases h skb with ⟨hd, -⟩ | ⟨t, cost, l, hs⟩
  · rw [hd] at heq
    obtain ⟨-, rfl⟩ := Prod.mk.inj (Except.ok.inj heq)
    rfl
  · rw [hs] at heq
    obtain ⟨-, rfl⟩ := Prod.mk.inj (Except.ok.inj heq)
    have hd := h.pos_lt (j := k.span + t) l.ahead.le
    rw [store_links]
    exact kunitEnqueueTail_frame (r.holds _ hd) hne (hp _ hd)

/-- The step lemma: of the packets `l` outside the ring and the one that is returned all are
unlinked if and only if that one was alone on its node. -/
theorem Represents.step_links (r : Represents k L) (hinv : RingInv (k.plain L)) {l : List Skb}
    (hunlinked : ∀ p ∈ l, k.links p = none) (hout : ∀ p ∈ l, ∀ i < k.totalTime, p ∉ L i)
    {c : RingCall} (hnew : ∀ skb ∈ offeredBy [c], skb ∉ l) {a : RingAnswer}
    (heq : ringStep k c = .ok (a, k')) :
    (∀ p ∈ l ++ (ringAct (c, a)).popped.toList, k'.links p = none) ↔ Alone k c := by
  have h : Circular k := ⟨hinv.two_le, hinv.next_eq, hinv.pread_lt, hinv.pwrite_lt⟩
  cases c with
  | enqueue skb =>
    obtain ⟨⟨ret, k₁⟩, he⟩ : ∃ res, kfifoEnqueue (some skb) k = .ok res := by
      rcases kfifoEnqueue_cases h skb with ⟨hd, -⟩ | ⟨t, cost, -, hs⟩
      · exact ⟨_, hd⟩
      · exact ⟨_, hs⟩
    rw [ringStep_enqueue he] at heq
    obtain ⟨rfl, rfl⟩ := Prod.mk.inj (Except.ok.inj heq)
    have hnone : (ringAct (.enqueue skb, .verdict ret)).popped = none := by
      cases ret <;> rfl
    refine iff_of_true (fun p hp => ?_) trivial
    rw [hnone, Option.toList_none, List.append_nil] at hp
    -- only the tail of the list that the packet joins gets a new link
    have hne : p ≠ skb := by
      rintro rfl
      exact hnew p (by simp [offeredBy]) hp
    rw [r.enqueue_links h he hne (hout p hp)]
    exact hunlinked p hp
  | dequeue =>
    obtain ⟨⟨o, k₁⟩, he⟩ : ∃ res, kfifoDequeue k = .ok res := by
      obtain ⟨e, -, ⟨-, hd⟩ | ⟨-, hd, -⟩⟩ := kfifoDequeue_cases h
      · exact ⟨_, hd⟩
      · exact ⟨_, hd⟩
    rw [ringStep_dequeue he] at heq
    obtain ⟨rfl, rfl⟩ := Prod.mk.inj (Except.ok.inj heq)
    obtain ⟨hlinks, halone⟩ := r.dequeue_links hinv he
    have hpopped : (ringAct (.dequeue, .packet o)).popped = o := by
      cases o <;> rfl
    -- the packet that is taken keeps its link, so it has to be the last of its node
    rw [hpopped, hlinks, ← halone]
    constructor
    · rintro hall p rfl
      exact hall p (by simp)
    · intro hone p hp
      rcases List.mem_append.mp hp with hp | hp
      · exact hunlinked p hp
      · exact hone p (Option.mem_toList.mp hp)
  | finish =>
    rw [ringStep_finish] at heq
    obtain ⟨rfl, rfl⟩ := Prod.mk.inj (Except.ok.inj heq)
    refine iff_of_true (fun p hp => ?_) trivial
    rw [kfifoFinish_links]
    exact hunlinked p (by simpa [ringAct, Fifo.Act.popped] using hp)

theorem returnedBy_snoc (h : RingHistory) (e : RingCall × RingAnswer) :
    returnedBy (h ++ [e]) = returnedBy h ++ (ringAct e).popped.toList := by
  rw [returnedBy, List.map_append]
  exact Fifo.popped_snoc _ _

theorem acceptedBy_sublist (h : RingHistory) :
    (acceptedBy h).Sublist (offeredBy (h.map Prod.fst)) := by
  induction h with
  | nil => exact List.Sublist.refl _
  | cons e h ih =>
    obtain ⟨c, a⟩ := e
    have hsplit : acceptedBy ((c, a) :: h) = (ringAct (c, a)).pushed.toList ++ acceptedBy h := by
      cases hact : (ringAct (c, a)).pushed <;>
        simp [acceptedBy, Fifo.pushed, hact]
    have hoffer : offeredBy (((c, a) :: h).map Prod.fst) =
        offeredBy [c] ++ offeredBy (h.map Prod.fst) := by
      cases c <;> simp [offeredBy]
    rw [hsplit, hoffer]
    refine List.Sublist.append ?_ ih
    cases c with
    | enqueue skb =>
      rcases a with ret | o | s
      · cases ret <;> simp [ringAct, Fifo.Act.pushed, offeredBy]
      · simp [ringAct, Fifo.Act.pushed]
      · simp [ringAct, Fifo.Act.pushed]
    | dequeue =>
      rcases a with ret | o | s
      · simp [ringAct, Fifo.Act.pushed]
      · cases o <;> simp [ringAct, Fifo.Act.pushed]
      · simp [ringAct, Fifo.Act.pushed]
    | finish => simp [ringAct, Fifo.Act.pushed]

theorem EmptyRing.returned_apart {a₀ : Ring} (h₀ : EmptyRing a₀) {h : RingHistory}
    (run : Run ringStep a₀ h (k.plain L)) (honce : (offeredBy (h.map Prod.fst)).Nodup)
    (hp : p ∈ returnedBy h) : ∀ i < k.totalTime, p ∉ L i := by
  obtain ⟨hinv, -, hfifo⟩ := h₀.run run
  intro i hi hmem
  have hstored : p ∈ (k.plain L).stored := by
    obtain ⟨j, hj, rfl⟩ := Cyclic.exists_shift hinv.pread_lt (show i < (k.plain L).totalTime from hi)
    rw [hinv.stored_eq]
    exact List.mem_flatMap.mpr ⟨j, List.mem_range.mpr hj, hmem⟩
  have hnodup : (returnedBy h ++ (k.plain L).stored).Nodup := by
    rw [hfifo]
    exact honce.sublist (acceptedBy_sublist h)
  exact List.disjoint_of_nodup_append hnodup hp hstored

/-- The runs in which every returned packet is detached, then and ever after, are the runs
in which every packet that is taken was alone on its node. -/
theorem returned_detached (k₀ : LinkedRing) (fifo : ℕ → Knode KunitSkbHead) {number : ℕ}
    (hnumber : 2 ≤ number) (rate : ℕ) {h : RingHistory}
    (run : GuardedRun ringStep Unlinked (kfifoInit (some fifo) number rate k₀).2 h k)
    (honce : (offeredBy (h.map Prod.fst)).Nodup) :
    (∀ h' k', h' <+: h → Run ringStep (kfifoInit (some fifo) number rate k₀).2 h' k' →
      ∀ p ∈ returnedBy h', k'.Detached p) ↔
    GuardedRun ringStep Alone (kfifoInit (some fifo) number rate k₀).2 h k := by
  have hempty := kfifoInit_empty k₀ fifo hnumber rate
  generalize (kfifoInit (some fifo) number rate k₀).2 = k₁ at run hempty ⊢
  obtain ⟨hplain, hrep₀⟩ := hempty.plain
  -- beside the claim the run of the plain ring is carried along, for the order of the packets
  refine run.always_iff (I := fun h k => ∀ p ∈ returnedBy h, k.Detached p)
    (J := fun h k => ∃ a, Follows h k a ∧ Run ringStep (k₁.plain fun _ => []) h a)
    (D := fun h => (offeredBy (h.map Prod.fst)).Nodup) (fun h e hn => ?_)
    (by simp [returnedBy, Fifo.popped])
    ⟨_, ⟨fun _ => [], rfl, hrep₀, hplain.inv, by simp⟩, .nil⟩ ?_ honce
  · rw [offeredBy_snoc] at hn
    exact hn.of_append_left
  rintro h k c a k' ⟨b, hf, rb⟩ hc hn heq
  obtain ⟨b', hb', hf'⟩ := hf.step hc hn heq
  have rb' : Run ringStep (k₁.plain fun _ => []) (h ++ [(c, a)]) b' := .snoc rb trivial hb'
  refine ⟨⟨b', hf', rb'⟩, fun hI => ?_⟩
  obtain ⟨L, rfl, r, hinv, hoff⟩ := hf
  obtain ⟨L', rfl, r', -, -⟩ := hf'
  have hn₀ : (offeredBy (h.map Prod.fst)).Nodup := by
    rw [offeredBy_snoc] at hn
    exact hn.of_append_left
  have hlinks : (∀ p ∈ returnedBy (h ++ [(c, a)]), k'.Detached p) ↔
      ∀ p ∈ returnedBy (h ++ [(c, a)]), k'.links p = none :=
    forall₂_congr fun p hp => r'.detached_iff (hplain.returned_apart rb' hn hp)
  rw [hlinks, returnedBy_snoc]
  have hout : ∀ p ∈ returnedBy h, ∀ i < k.totalTime, p ∉ L i := fun p hp =>
    hplain.returned_apart rb hn₀ hp
  have hoffered : ∀ p ∈ returnedBy h, p ∈ offeredBy (h.map Prod.fst) := fun p hp => by
    obtain ⟨-, -, hfifo⟩ := hplain.run rb
    exact (acceptedBy_sublist h).subset (hfifo ▸ List.mem_append_left _ hp)
  refine r.step_links hinv (fun p hp => (hI p hp).unlinked) hout (fun skb hskb hp => ?_) heq
  rw [offeredBy_snoc] at hn
  exact List.disjoint_of_nodup_append hn (hoffered skb hp) hskb

/-- Of two packets on one node the first leaves with its link to the second. -/
theorem returned_still_linked :
    ∃ h k, GuardedRun ringStep Unlinked linkedSample h k ∧ (offeredBy (h.map Prod.fst)).Nodup ∧
      skbSample 1 1500 ∈ returnedBy h ∧
      k.links (skbSample 1 1500) = some (skbSample 2 400) ∧ k.Holding (skbSample 2 400) ∧
      ¬k.Detached (skbSample 1 1500) := by
  refine ⟨_, _, linkedSample_run, by decide, by decide, by decide,
    ⟨2, by decide, skbSample 2 400, by decide, .refl⟩, fun hd => ?_⟩
  exact absurd hd.unlinked (by decide)

theorem returned_detached_sample :
    (kfifoTake ((linkedSample.store (skbSample 1 1500) 2 500000).walk 2)).2.Detached
      (skbSample 1 1500) := by
  obtain ⟨hcirc, first⟩ := linkedSample_store
  have taken : ringStep (linkedSample.store (skbSample 1 1500) 2 500000) .dequeue =
      .ok (.packet (some (skbSample 1 1500)),
        (kfifoTake ((linkedSample.store (skbSample 1 1500) 2 500000).walk 2)).2) := rfl
  have halone : Alone (linkedSample.store (skbSample 1 1500) 2 500000) .dequeue :=
    alone_of_single hcirc (by decide)
  have unlinked : GuardedRun ringStep Unlinked linkedSample
      [(.enqueue (skbSample 1 1500), .verdict .success),
        (.dequeue, .packet (some (skbSample 1 1500)))] _ :=
    .cons rfl first (.cons trivial taken .nil)
  exact (returned_detached _ _ (by decide) _ unlinked (by decide)).mpr
    (.cons trivial first (.cons halone taken .nil)) _ _ (List.prefix_refl _)
    (.cons trivial first (.cons trivial taken .nil)) _ (by decide)

end MeasurementLimiter
