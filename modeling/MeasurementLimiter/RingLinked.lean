import MeasurementLimiter.RingFifo

namespace MeasurementLimiter

open Runs

abbrev LinkedRing := Kfifo SkbLinks KunitSkbHead

section Lists

variable {M U M' V : Type} {k : Kfifo M U} {m : M'} {L : ℕ → V}

def Kfifo.withLists (k : Kfifo M U) (m : M') (L : ℕ → V) : Kfifo M' V where
  links := m
  pbase := k.pbase
  node i := { k.node i with kunit := L i }
  totalTime := k.totalTime
  totalLen := k.totalLen
  pread := k.pread
  pwrite := k.pwrite
  slen := k.slen
  mtu := k.mtu
  rate := k.rate

theorem Circular.withLists (h : Circular k) : Circular (k.withLists m L) :=
  ⟨h.two_le, h.next_eq, h.pread_lt, h.pwrite_lt⟩

theorem landing_withLists {skb : Skb} {t cost : ℕ} :
    Landing (k.withLists m L) skb t cost ↔ Landing k skb t cost :=
  ⟨fun l => ⟨l.room, l.free, l.ahead, l.place⟩, fun l => ⟨l.room, l.free, l.ahead, l.place⟩⟩

theorem kfifoReadLoop_withLists (fuel : ℕ) (k : Kfifo M U) :
    kfifoReadLoop fuel (k.withLists m L) =
      (kfifoReadLoop fuel k).map fun r => (r.1, r.2.withLists m L) := by
  induction fuel generalizing k with
  | zero => rfl
  | succ fuel ih =>
    by_cases hpkt : (k.node k.pread).pkt = 0
    · have hpkt' : ((k.withLists m L).node (k.withLists m L).pread).pkt = 0 := hpkt
      cases hnext : (k.node k.pread).next with
      | none =>
        have hnext' : ((k.withLists m L).node (k.withLists m L).pread).next = none := hnext
        simp only [kfifoReadLoop, hpkt, hpkt', hnext, hnext', if_true, Except.map]
      | some t =>
        have hnext' : ((k.withLists m L).node (k.withLists m L).pread).next = some t := hnext
        have htail := ih { k with pread := t }
        simp only [kfifoReadLoop, hpkt, hpkt', hnext, hnext', if_true]
        by_cases hw : t = k.pwrite
        · rw [if_pos hw]
          exact if_pos hw
        · rw [if_neg hw, ← htail]
          exact if_neg hw
    · rw [kfifoReadLoop, kfifoReadLoop, if_neg hpkt]
      exact if_neg hpkt

theorem kfifoReadForward_withLists (k : Kfifo M U) :
    kfifoReadForward (k.withLists m L) =
      (kfifoReadForward k).map fun r => (r.1, r.2.withLists m L) := by
  unfold kfifoReadForward
  by_cases h : k.pread = k.pwrite
  · rw [if_pos h]
    exact if_pos h
  · rw [if_neg h, ← kfifoReadLoop_withLists]
    exact if_neg h

end Lists

section Represents

variable {k k' : LinkedRing} {L : ℕ → List Skb} {skb : Skb}

/-- The linked lists of the nodes are the lists `L`, and no packet is in two places. -/
structure Represents (k : LinkedRing) (L : ℕ → List Skb) : Prop where
  holds : ∀ i < k.totalTime, (k.node i).kunit.Holds k.links (L i)
  nodup : ∀ i < k.totalTime, (L i).Nodup
  disjoint : ∀ i < k.totalTime, ∀ j < k.totalTime, i ≠ j → ∀ p ∈ L i, p ∉ L j

abbrev Kfifo.plain (k : LinkedRing) (L : ℕ → List Skb) : Ring := k.withLists () L

theorem store_plain (k : LinkedRing) (skb : Skb) (t cost : ℕ) :
    (k.plain L).store skb t cost = (k.store skb t cost).plain
      (Function.update L (k.pos (k.span + t)) (L (k.pos (k.span + t)) ++ [skb])) := by
  refine Kfifo.ext rfl rfl (funext fun j => ?_) rfl rfl rfl rfl rfl rfl rfl
  change ((k.plain L).store skb t cost).node j = { (k.store skb t cost).node j with
    kunit := Function.update L (k.pos (k.span + t)) (L (k.pos (k.span + t)) ++ [skb]) j }
  rw [store_node, store_node, modify_node, modify_node]
  by_cases hj : j = k.pos (k.span + t)
  · rw [hj, Function.update_self, if_pos rfl]
    exact if_pos rfl
  · rw [Function.update_of_ne hj, if_neg hj]
    exact if_neg hj

theorem Represents.store (r : Represents k L) {t cost : ℕ} (ht : k.span + t < k.totalTime)
    (h : Circular k) (hfresh : ∀ i < k.totalTime, skb ∉ L i) (hend : k.links skb = none) :
    Represents (k.store skb t cost)
      (Function.update L (k.pos (k.span + t)) (L (k.pos (k.span + t)) ++ [skb])) := by
  have hd := h.pos_lt ht.le
  have hmem : ∀ i < k.totalTime, ∀ p, p ∈ Function.update L (k.pos (k.span + t))
      (L (k.pos (k.span + t)) ++ [skb]) i → p ∈ L i ∨ (p = skb ∧ i = k.pos (k.span + t)) := by
    intro i _ p hp
    by_cases hi : i = k.pos (k.span + t)
    · rw [hi, Function.update_self] at hp
      rw [hi]
      simpa using hp
    · rw [Function.update_of_ne hi] at hp
      exact .inl hp
  -- the lists, no packet twice in one, and no packet in two of them
  refine ⟨fun i hi => ?_, fun i hi => ?_, fun i hi j hj hij p hp hp' => ?_⟩
  · rw [store_node, store_links, modify_node]
    by_cases hid : i = k.pos (k.span + t)
    · rw [if_pos hid, hid, Function.update_self]
      exact kunitEnqueueTail_holds (r.holds _ hd) (r.nodup _ hd) (hfresh _ hd) hend
    · rw [if_neg hid, Function.update_of_ne hid]
      apply (r.holds i hi).congr
      intro p hp
      have hne : p ≠ skb := fun he => hfresh i hi (he ▸ hp)
      exact kunitEnqueueTail_frame (r.holds _ hd) hne (r.disjoint i hi _ hd hid p hp)
  · by_cases hid : i = k.pos (k.span + t)
    · rw [hid, Function.update_self]
      rw [← List.concat_eq_append]
      exact (r.nodup _ hd).concat (hfresh _ hd)
    · rw [Function.update_of_ne hid]
      exact r.nodup i hi
  · rcases hmem i hi p hp with hpi | ⟨rfl, rfl⟩
    · rcases hmem j hj p hp' with hpj | ⟨rfl, rfl⟩
      · exact r.disjoint i hi j hj hij p hpi hpj
      · exact hfresh i hi hpi
    · rcases hmem j hj p hp' with hpj | ⟨-, hj'⟩
      · exact hfresh j hj hpj
      · exact hij hj'.symm

theorem Represents.rewrite (r : Represents k L) {f : Knode KunitSkbHead → Knode KunitSkbHead}
    {l : List Skb} {i : ℕ} (hf : (f (k.node i)).kunit.Holds k.links l)
    (hl : l.Sublist (L i)) : Represents (k.modify i f) (Function.update L i l) := by
  have hsub : ∀ j, (Function.update L i l j).Sublist (L j) := by
    intro j
    by_cases hj : j = i
    · rw [hj, Function.update_self]
      exact hl
    · rw [Function.update_of_ne hj]
  refine ⟨fun j hj => ?_, fun j hj => (r.nodup j hj).sublist (hsub j), ?_⟩
  · rw [modify_node]
    by_cases hji : j = i
    · rw [if_pos hji, hji, Function.update_self]
      exact hf
    · rw [if_neg hji, Function.update_of_ne hji]
      exact r.holds j hj
  · intro a ha b hb hab p hp hp'
    exact r.disjoint a ha b hb hab p ((hsub a).subset hp) ((hsub b).subset hp')

theorem modify_plain (k : LinkedRing) (i : ℕ) {f : Knode KunitSkbHead → Knode KunitSkbHead}
    {g : Knode (List Skb) → Knode (List Skb)} {l : List Skb}
    (hg : g { k.node i with kunit := L i } = { f (k.node i) with kunit := l }) :
    (k.plain L).modify i g = (k.modify i f).plain (Function.update L i l) := by
  refine Kfifo.ext rfl rfl (funext fun j => ?_) rfl rfl rfl rfl rfl rfl rfl
  change ((k.plain L).modify i g).node j =
    { (k.modify i f).node j with kunit := Function.update L i l j }
  rw [modify_node, modify_node]
  by_cases hj : j = i
  · rw [hj, Function.update_self, if_pos rfl, if_pos rfl]
    exact hg
  · rw [Function.update_of_ne hj, if_neg hj, if_neg hj]
    rfl

theorem Represents.take (r : Represents k L) (h : Circular k) :
    ∃ L', kfifoTake (k.plain L) = ((kfifoTake k).1, (kfifoTake k).2.plain L') ∧
      Represents (kfifoTake k).2 L' ∧ ∀ i, (L' i).Sublist (L i) := by
  obtain ⟨hhead, htail⟩ := kunitDequeueHead_holds (r.holds _ h.pread_lt)
  have hsub : ∀ i, (Function.update L k.pread (L k.pread).tail i).Sublist (L i) := by
    intro i
    by_cases hi : i = k.pread
    · rw [hi, Function.update_self]
      exact List.tail_sublist _
    · rw [Function.update_of_ne hi]
  refine ⟨Function.update L k.pread (L k.pread).tail, ?_⟩
  cases hd : kunitDequeueHead k.links (k.node k.pread).kunit with
  | mk o kuh =>
    rw [hd] at hhead htail
    have hlinked : Kunit.dequeueHead k.links (k.node k.pread).kunit = (o, kuh) := hd
    have hplain : Kunit.dequeueHead (k.plain L).links ((k.plain L).node (k.plain L).pread).kunit =
        (o, (L k.pread).tail) := Prod.ext hhead.symm rfl
    cases o with
    | none =>
      have hrep := r.rewrite (f := fun n => { n with kunit := kuh }) htail (List.tail_sublist _)
      simp only [kfifoTake, hlinked, hplain]
      exact ⟨congrArg (Prod.mk none) (modify_plain k k.pread rfl), hrep, hsub⟩
    | some p =>
      have hrep := r.rewrite (f := fun n => { n with
        pkt := usub 32 n.pkt 1, slen := usub 32 n.slen p.pktLen, kunit := kuh }) htail
        (List.tail_sublist _)
      have hring := modify_plain (L := L) k k.pread
        (f := fun n => { n with
          pkt := usub 32 n.pkt 1, slen := usub 32 n.slen p.pktLen, kunit := kuh })
        (g := fun n => { n with
          pkt := usub 32 n.pkt 1, slen := usub 32 n.slen p.pktLen, kunit := (L k.pread).tail }) rfl
      simp only [kfifoTake, hlinked, hplain]
      refine ⟨congrArg (Prod.mk (some p)) ?_, ⟨hrep.holds, hrep.nodup, hrep.disjoint⟩, hsub⟩
      exact congrArg (fun k' : Ring => { k' with slen := usub 64 k.slen p.pktLen }) hring

theorem Represents.read_at (r : Represents k L) (i : ℕ) : Represents { k with pread := i } L :=
  ⟨r.holds, r.nodup, r.disjoint⟩

theorem kfifoReadForward_moves (h : Circular k) (hpkt : (k.node k.pread).pkt = 0) :
    ∃ ret, ∃ i < k.totalTime, kfifoReadForward k = .ok (ret, { k with pread := i }) := by
  have hlt := h.span_lt
  unfold kfifoReadForward
  by_cases hpw : k.pread = k.pwrite
  · exact ⟨0, k.pread, h.pread_lt, if_pos hpw⟩
  · have hzero : (k.nth 0).pkt = 0 := by rwa [h.nth_zero]
    obtain ⟨e, -, hle, -, -, hres⟩ := kfifoReadLoop_spec (k.totalTime + 1) h hpw hzero (by omega)
    rw [if_neg hpw]
    exact ⟨_, k.pos e, h.pos_lt (by omega), hres⟩

theorem Represents.dequeue (r : Represents k L) (h : Circular k) {o : Option Skb}
    (heq : kfifoDequeue k = .ok (o, k')) :
    ∃ L', kfifoDequeue (k.plain L) = .ok (o, k'.plain L') ∧ Represents k' L' ∧
      ∀ i, (L' i).Sublist (L i) := by
  have hkeep : ∀ i, (L i).Sublist (L i) := fun i => List.Sublist.refl _
  by_cases hpkt : (k.node k.pread).pkt = 0
  · have hpkt' : ((k.plain L).node (k.plain L).pread).pkt = 0 := hpkt
    by_cases hsleep : 0 < (k.node k.pread).sleepTime
    · have hsleep' : 0 < ((k.plain L).node (k.plain L).pread).sleepTime := hsleep
      rw [kfifoDequeue, if_pos hpkt, if_pos hsleep] at heq
      obtain ⟨rfl, rfl⟩ := Prod.mk.inj (Except.ok.inj heq)
      rw [kfifoDequeue, if_pos hpkt', if_pos hsleep']
      exact ⟨L, rfl, r, hkeep⟩
    · have hsleep' : ¬0 < ((k.plain L).node (k.plain L).pread).sleepTime := hsleep
      obtain ⟨ret, i, hi, hread⟩ := kfifoReadForward_moves h hpkt
      have hread' : kfifoReadForward (k.plain L) = .ok (ret, { k.plain L with pread := i }) := by
        rw [kfifoReadForward_withLists, hread]
        rfl
      simp only [kfifoDequeue, hpkt, hsleep, hread, if_true, if_false] at heq
      simp only [kfifoDequeue, hpkt', hsleep', hread', if_true, if_false]
      by_cases hret : ret ≠ 1
      · rw [if_pos hret] at heq ⊢
        obtain ⟨rfl, rfl⟩ := Prod.mk.inj (Except.ok.inj heq)
        exact ⟨L, rfl, r.read_at i, hkeep⟩
      · rw [if_neg hret] at heq ⊢
        obtain ⟨L', htake, hrep, hsub⟩ := (r.read_at i).take (h.read_at hi)
        rw [Except.ok.inj heq] at htake hrep
        exact ⟨L', congrArg Except.ok htake, hrep, hsub⟩
  · have hpkt' : ((k.plain L).node (k.plain L).pread).pkt ≠ 0 := hpkt
    rw [kfifoDequeue, if_neg hpkt] at heq
    obtain ⟨L', htake, hrep, hsub⟩ := r.take h
    rw [Except.ok.inj heq] at htake hrep
    rw [kfifoDequeue, if_neg hpkt', htake]
    exact ⟨L', rfl, hrep, hsub⟩

theorem Represents.enqueue (r : Represents k L) (h : Circular k) (hfresh : ∀ i < k.totalTime, skb ∉ L i)
    (hend : k.links skb = none) {ret : NetXmit} (heq : kfifoEnqueue (some skb) k = .ok (ret, k')) :
    ∃ L', kfifoEnqueue (some skb) (k.plain L) = .ok (ret, k'.plain L') ∧ Represents k' L' ∧
      ∀ i, ∀ p ∈ L' i, p ∈ L i ∨ p = skb := by
  have h' : Circular (k.plain L) := h.withLists
  -- the place of a packet depends on counters only, which both rings share
  rcases kfifoEnqueue_cases h skb with ⟨hdrop, hno⟩ | ⟨t, cost, l, hstore⟩
  · rw [hdrop] at heq
    obtain ⟨rfl, rfl⟩ := Prod.mk.inj (Except.ok.inj heq)
    refine ⟨L, ?_, r, fun _ _ => .inl⟩
    rcases kfifoEnqueue_cases h' skb with ⟨hdrop', -⟩ | ⟨t, cost, l, -⟩
    · exact hdrop'
    · exact absurd (landing_withLists.mp l) (hno t cost)
  · rw [hstore] at heq
    obtain ⟨rfl, rfl⟩ := Prod.mk.inj (Except.ok.inj heq)
    have l' : Landing (k.plain L) skb t cost := landing_withLists.mpr l
    refine ⟨_, ?_, r.store l.ahead h hfresh hend, ?_⟩
    · rw [l'.enqueue_eq h', store_plain]
    · intro i p hp
      by_cases hi : i = k.pos (k.span + t)
      · rw [hi, Function.update_self] at hp
        rw [hi]
        simpa using hp
      · rw [Function.update_of_ne hi] at hp
        exact .inl hp

theorem Represents.finish (r : Represents k L) :
    ∃ L', kfifoFinish (k.plain L) = ((kfifoFinish k).1, (kfifoFinish k).2.plain L') ∧
      Represents (kfifoFinish k).2 L' ∧ ∀ i, (L' i).Sublist (L i) := by
  unfold kfifoFinish
  by_cases howes : k.Owes
  · have howes' : (k.plain L).Owes := howes
    rw [if_pos howes, if_pos howes']
    refine ⟨_, congrArg (Prod.mk _) (modify_plain (l := []) k k.pread rfl),
      r.rewrite kunitSkbHeadInit_holds (List.nil_sublist _), fun i => ?_⟩
    by_cases hi : i = k.pread
    · rw [hi, Function.update_self]
      exact List.nil_sublist _
    · rw [Function.update_of_ne hi]
  · have howes' : ¬(k.plain L).Owes := howes
    rw [if_neg howes, if_neg howes']
    exact ⟨L, rfl, r, fun i => List.Sublist.refl _⟩

def Unlinked (k : LinkedRing) : RingCall → Prop
  | .enqueue skb => k.links skb = none
  | _ => True

/-- After the calls of `h` the linked ring `k` represents `a` with lists of packets that
were offered. -/
def Follows (h : RingHistory) (k : LinkedRing) (a : Ring) : Prop :=
  ∃ L, a = k.plain L ∧ Represents k L ∧ RingInv a ∧ ∀ i, ∀ p ∈ L i, p ∈ offeredBy (h.map Prod.fst)

theorem offeredBy_snoc (h : RingHistory) (c : RingCall) (a : RingAnswer) :
    offeredBy ((h ++ [(c, a)]).map Prod.fst) = offeredBy (h.map Prod.fst) ++ offeredBy [c] := by
  rw [List.map_append, offeredBy, List.filterMap_append]
  rfl

theorem EmptyRing.plain {k : LinkedRing} (h : EmptyRing k) :
    EmptyRing (k.plain fun _ => []) ∧ Represents k fun _ => [] := by
  refine ⟨⟨h.toCircular.withLists, h.start, fun i hi => ?_⟩, fun i hi => ?_, by simp, by simp⟩
  · have hn := h.fresh i hi
    exact ⟨hn.pkt, hn.slen, hn.sleepTime, hn.leftTime, rfl⟩
  · rw [(h.fresh i hi).kunit]
    exact kunitSkbHeadInit_holds

theorem Follows.step {h : RingHistory} {a : Ring} {c : RingCall} {o : RingAnswer}
    (hf : Follows h k a) (hc : Unlinked k c)
    (honce : (offeredBy ((h ++ [(c, o)]).map Prod.fst)).Nodup) (heq : ringStep k c = .ok (o, k')) :
    ∃ a', ringStep a c = .ok (o, a') ∧ Follows (h ++ [(c, o)]) k' a' := by
  obtain ⟨L, rfl, hrep, hinv, hoff⟩ := hf
  have hcirc : Circular k := ⟨hinv.two_le, hinv.next_eq, hinv.pread_lt, hinv.pwrite_lt⟩
  obtain ⟨o', a', hstep, hinv'⟩ := hinv.step c
  suffices ∃ L', ringStep (k.plain L) c = .ok (o, k'.plain L') ∧ Represents k' L' ∧
      ∀ i, ∀ p ∈ L' i, p ∈ L i ∨ p ∈ offeredBy [c] by
    obtain ⟨L', hplain, hrep', hmem⟩ := this
    rw [hplain] at hstep
    obtain ⟨rfl, rfl⟩ := Prod.mk.inj (Except.ok.inj hstep)
    refine ⟨_, hplain, L', rfl, hrep', hinv', fun i p hp => ?_⟩
    rw [offeredBy_snoc]
    exact List.mem_append.mpr ((hmem i p hp).imp (hoff i p) id)
  cases c with
  | enqueue skb =>
    rw [offeredBy_snoc] at honce
    have hfresh : ∀ i < k.totalTime, skb ∉ L i := fun i _ hi =>
      List.disjoint_of_nodup_append honce (hoff i skb hi) (by simp [offeredBy])
    simp only [ringStep] at heq ⊢
    split at heq
    · cases heq
    · rename_i ret k₁ he
      obtain ⟨rfl, rfl⟩ := Prod.mk.inj (Except.ok.inj heq)
      obtain ⟨L', he', hrep', hmem⟩ := hrep.enqueue hcirc hfresh hc he
      rw [he']
      exact ⟨L', rfl, hrep', fun i p hp => (hmem i p hp).imp id fun hp => by simp [offeredBy, hp]⟩
  | dequeue =>
    simp only [ringStep] at heq ⊢
    split at heq
    · cases heq
    · rename_i p k₁ he
      obtain ⟨rfl, rfl⟩ := Prod.mk.inj (Except.ok.inj heq)
      obtain ⟨L', he', hrep', hsub⟩ := hrep.dequeue hcirc he
      rw [he']
      exact ⟨L', rfl, hrep', fun i p hp => .inl ((hsub i).subset hp)⟩
  | finish =>
    obtain ⟨L', he', hrep', hsub⟩ := hrep.finish
    rw [ringStep_finish] at heq ⊢
    obtain ⟨rfl, rfl⟩ := Prod.mk.inj (Except.ok.inj heq)
    rw [he']
    exact ⟨L', rfl, hrep', fun i p hp => .inl ((hsub i).subset hp)⟩

theorem stored_plain (h : Circular k) {d : ℕ} (hd : d < k.totalTime)
    (hw : k.follow d = some k.pwrite) :
    (k.plain L).stored = ((List.range (d + 1)).filterMap k.follow).flatMap L := by
  have hnodes : (List.range (d + 1)).filterMap k.follow = (List.range (d + 1)).map k.pos :=
    h.filterMap_follow fun j hj => by have := List.mem_range.mp hj; omega
  rw [hnodes, List.flatMap_map, h.eq_span hd hw]
  rfl

/-- Along every run that offers each packet once, unlinked, the linked ring represents a
plain ring that answers the same calls in the same way. -/
theorem EmptyRing.follows {k₀ : LinkedRing} (h₀ : EmptyRing k₀) {h : RingHistory}
    (run : GuardedRun ringStep Unlinked k₀ h k) (honce : (offeredBy (h.map Prod.fst)).Nodup) :
    ∃ L, Represents k L ∧ Run ringStep (k₀.plain fun _ => []) h (k.plain L) := by
  obtain ⟨hplain, hrep₀⟩ := h₀.plain
  have hfollows : Follows [] k₀ (k₀.plain fun _ => []) :=
    ⟨fun _ => [], rfl, hrep₀, hplain.inv, by simp⟩
  obtain ⟨a, ra, L, rfl, hrep, -, -⟩ := run.simulate
    (D := fun h => (offeredBy (h.map Prod.fst)).Nodup)
    (fun h e hn => by
      rw [offeredBy_snoc] at hn
      exact hn.of_append_left)
    hfollows (fun h k a c o k' hf hc hn heq => hf.step hc hn heq) honce
  exact ⟨L, hrep, ra⟩

/-- The ring is a FIFO queue: along every run that offers each packet once, unlinked, no
call faults, what was returned and what the nodes hold in ring order are what was
accepted, and only an empty ring or a read node that owes time gives NULL. -/
theorem kfifo_refines_fifo (k₀ : LinkedRing) (fifo : ℕ → Knode KunitSkbHead) {number : ℕ}
    (hnumber : 2 ≤ number) (rate : ℕ) {h : RingHistory}
    (run : GuardedRun ringStep Unlinked (kfifoInit (some fifo) number rate k₀).2 h k)
    (honce : (offeredBy (h.map Prod.fst)).Nodup) :
    (∀ c, ∃ a k', ringStep k c = .ok (a, k')) ∧
      ∃ L : ℕ → List Skb, (∀ i < number, (k.node i).kunit.Holds k.links (L i)) ∧
        (∃ d < number, k.follow d = some k.pwrite ∧
          returnedBy h ++ ((List.range (d + 1)).filterMap k.follow).flatMap L = acceptedBy h) ∧
        ∀ k', kfifoDequeue k = .ok (none, k') → (∀ i < number, L i = []) ∨ k.Owes := by
  have hempty := kfifoInit_empty k₀ fifo hnumber rate
  obtain ⟨L, hrep, ra⟩ := hempty.follows run honce
  obtain ⟨hinv, htime, hfifo⟩ := hempty.plain.1.run ra
  have hcirc : Circular k := ⟨hinv.two_le, hinv.next_eq, hinv.pread_lt, hinv.pwrite_lt⟩
  have hnum : k.totalTime = number := by
    rw [show k.totalTime = _ from htime]
    simp [kfifoInit, hnumber.not_gt, Kfifo.withLists]
  have hw : k.follow k.span = some k.pwrite := by
    rw [hcirc.follow_eq hcirc.span_lt.le, hcirc.pos_span]
  refine ⟨hcirc.step_ok, L, fun i hi => hrep.holds i (by omega), ⟨k.span, ?_, hw, ?_⟩, ?_⟩
  · rw [← hnum]
    exact hcirc.span_lt
  · rw [← stored_plain hcirc hcirc.span_lt hw]
    exact hfifo
  · intro k' hnull
    obtain ⟨L', hd, -, -⟩ := hrep.dequeue hcirc hnull
    rcases (hinv.dequeue_none hd).2 with hs | howes
    · exact .inl fun i hi => hinv.kunit_nil hs (show i < k.totalTime by omega)
    · exact .inr howes

def linkedSample : LinkedRing :=
  (kfifoInit (some fun _ => ⟨0, 0, 0, 0, none, none, ⟨none, none⟩⟩) 3 1000000
    ⟨fun _ => none, false, fun _ => ⟨0, 0, 0, 0, none, none, ⟨none, none⟩⟩, 0, 0, 0, 0, 0, 1500,
      ⟨1000000, fun n => 1000 * n⟩⟩).2

theorem linkedSample_circular : Circular linkedSample :=
  (kfifoInit_empty _ _ (by decide) _).toCircular

theorem linkedSample_first : Landing linkedSample (skbSample 1 1500) 2 500000 :=
  ⟨by decide, by decide, by decide, .inr ⟨(jumpLen_of_lt (show 1500000 < 2 ^ 31 by decide)).symm,
    (jumpCost_of_lt (show 1500000 < 2 ^ 31 by decide)).symm, by decide⟩⟩

theorem linkedSample_store :
    Circular (linkedSample.store (skbSample 1 1500) 2 500000) ∧
      ringStep linkedSample (.enqueue (skbSample 1 1500)) =
        .ok (.verdict .success, linkedSample.store (skbSample 1 1500) 2 500000) :=
  ⟨linkedSample_circular.store linkedSample_first.ahead,
    ringStep_enqueue (linkedSample_first.enqueue_eq linkedSample_circular)⟩

theorem linkedSample_second :
    Landing (linkedSample.store (skbSample 1 1500) 2 500000) (skbSample 2 400) 0 400000 :=
  ⟨by decide, by decide, by decide, .inl ⟨rfl, rfl, by decide⟩⟩

theorem linkedSample_run : GuardedRun ringStep Unlinked linkedSample
    [(.enqueue (skbSample 1 1500), .verdict .success), (.enqueue (skbSample 2 400), .verdict .success),
      (.dequeue, .packet (some (skbSample 1 1500)))]
    (kfifoTake (((linkedSample.store (skbSample 1 1500) 2 500000).store (skbSample 2 400) 0
      400000).walk 2)).2 := by
  obtain ⟨hcirc, first⟩ := linkedSample_store
  have second : ringStep (linkedSample.store (skbSample 1 1500) 2 500000)
      (.enqueue (skbSample 2 400)) = .ok (.verdict .success,
        (linkedSample.store (skbSample 1 1500) 2 500000).store (skbSample 2 400) 0 400000) :=
    ringStep_enqueue (linkedSample_second.enqueue_eq hcirc)
  exact .cons rfl first (.cons rfl second (.cons trivial rfl .nil))

theorem kfifo_refines_fifo_sample :
    ∃ (k : LinkedRing) (L : ℕ → List Skb), (∀ i < 3, (k.node i).kunit.Holds k.links (L i)) ∧
      ∃ d < 3, k.follow d = some k.pwrite ∧
        skbSample 1 1500 :: ((List.range (d + 1)).filterMap k.follow).flatMap L =
          [skbSample 1 1500, skbSample 2 400] := by
  obtain ⟨-, L, hholds, hfifo, -⟩ :=
    kfifo_refines_fifo _ _ (by decide) _ linkedSample_run (by decide)
  exact ⟨_, L, hholds, hfifo⟩

end Represents

end MeasurementLimiter
