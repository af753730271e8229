import Rustcurrent.SegQueue.Machine
import Mathlib.Data.List.Infix

/-!
# The shape of the segment chain

The segments ever linked form one list, the history's `chain`, at increasing addresses (the
allocator is a bump pointer and a segment is linked only behind the last one), each linked to the
next through `next` and the last one's `next` null (`Linked`). `Shape` adds where `head` and
`tail` stand in it, which segments are `deleted`, and that every segment has `k` slots pointing to
boxes.

`Grows` is what one step of any thread does to the memory as the other threads see it: the chain
only grows, `head` and `tail` move at most one link forward, a non-null `next` never changes, a
segment off the chain is never written, and a box stays allocated. Each memory operation of the
machine keeps `Shape` and is a `Grows` step under the condition the calling thread knows to hold;
the lemmas of this module say so once per operation.
-/

namespace Rustcurrent.SegQueue

namespace Shared

variable {V : Type} (s : Shared V)

/-- `l` is a list of segments at increasing addresses, each linked through `next` to the one
    after it, the last one's `next` null. -/
def Linked : List Nat → Prop
  | [] => True
  | [a] => s.nextOf a = 0
  | a :: b :: l => s.nextOf a = b ∧ a < b ∧ Linked (b :: l)

/-- The segments reachable from `a` along `next`, at most `fuel` of them. -/
def reachFrom : Nat → Nat → List Nat
  | 0, _ => []
  | fuel + 1, a => if a = 0 then [] else a :: reachFrom fuel (s.nextOf a)

/-- The segments reachable from `head`. There are fewer than `bound` segments, so the fuel
    never runs out (`Shape.reach_eq`). -/
def reach : List Nat := s.reachFrom s.bound s.head

/-- `p` is an allocated box. -/
def IsBox (p : Nat) : Prop := (s.boxes p).isSome = true

/-- The shape of the queue in every reachable state. -/
structure Shape : Prop where
  linked : s.Linked s.hist.chain
  head_mem : s.head ∈ s.hist.chain
  tail_mem : s.tail ∈ s.hist.chain
  head_le_tail : s.head ≤ s.tail
  /-- Only segments behind `head` are marked deleted. -/
  undeleted : ∀ a ∈ s.hist.chain, s.head ≤ a → s.deletedOf a = false
  chain_seg : ∀ a ∈ s.hist.chain, (s.segs a).isSome
  /-- A segment with a non-null `next` is on the chain. -/
  unlinked : ∀ a, s.nextOf a ≠ 0 → a ∈ s.hist.chain
  slots : ∀ a sg, s.segs a = some sg → sg.data.length = s.k ∧ ∀ p ∈ sg.data, s.IsBox p
  seg_fresh : ∀ a, (s.segs a).isSome → 0 < a ∧ a < s.bound
  box_fresh : ∀ p, s.IsBox p → 0 < p ∧ p < s.bound

/-- One step of any thread, as the other threads see the memory. -/
structure Grows (s s' : Shared V) : Prop where
  k_eq : s'.k = s.k
  chain_prefix : s.hist.chain <+: s'.hist.chain
  /-- While the last segment's `next` stays null, no segment is linked. -/
  chain_eq : ∀ a ∈ s.hist.chain, s.nextOf a = 0 → s'.nextOf a = 0 → s'.hist.chain = s.hist.chain
  head_step : s'.head = s.head ∨ s.nextOf s.head ≠ 0 ∧ s'.head = s.nextOf s.head
  tail_step : s'.tail = s.tail ∨ s.nextOf s.tail ≠ 0 ∧ s'.tail = s.nextOf s.tail
  next_eq : ∀ a, s.nextOf a ≠ 0 → s'.nextOf a = s.nextOf a
  /-- A segment off the chain is never written. -/
  seg_eq : ∀ a, (s.segs a).isSome → a ∉ s'.hist.chain → s'.segs a = s.segs a
  box_mono : ∀ p, s.IsBox p → s'.IsBox p

variable {s}

/-! ## Linked lists of segments -/

theorem Linked.tail_linked {a : Nat} {l : List Nat} (h : s.Linked (a :: l)) : s.Linked l := by
  cases l with
  | nil => trivial
  | cons b l => exact h.2.2

/-- Every segment after `a` in a linked list is at a higher address. -/
theorem Linked.lt_of_mem {a b : Nat} {l : List Nat} (h : s.Linked (a :: l)) (hb : b ∈ l) :
    a < b := by
  induction l generalizing a with
  | nil => cases hb
  | cons c l ih =>
    obtain ⟨-, hac, hl⟩ := h
    rcases List.mem_cons.mp hb with rfl | hb
    · exact hac
    · exact hac.trans (ih hl hb)

theorem Linked.pairwise {l : List Nat} (h : s.Linked l) : l.Pairwise (· < ·) := by
  induction l with
  | nil => exact List.Pairwise.nil
  | cons a l ih => exact List.Pairwise.cons (fun _ hb => h.lt_of_mem hb) (ih h.tail_linked)

theorem Linked.nodup {l : List Nat} (h : s.Linked l) : l.Nodup :=
  h.pairwise.imp Nat.ne_of_lt

/-- A non-null `next` of a linked segment is the segment after it. -/
theorem Linked.next_mem {a : Nat} {l : List Nat} (h : s.Linked l) (ha : a ∈ l)
    (hn : s.nextOf a ≠ 0) : s.nextOf a ∈ l ∧ a < s.nextOf a := by
  induction l with
  | nil => cases ha
  | cons c l ih =>
    rcases List.mem_cons.mp ha with rfl | ha
    · cases l with
      | nil => exact absurd h hn
      | cons d l =>
        rw [h.1]
        exact ⟨List.mem_cons_of_mem _ (List.mem_cons_self _ _), h.2.1⟩
    · obtain ⟨hm, hlt⟩ := ih h.tail_linked ha
      exact ⟨List.mem_cons_of_mem _ hm, hlt⟩

/-- A linked segment below another one has a non-null `next`, at most that segment. -/
theorem Linked.next_le {a b : Nat} {l : List Nat} (h : s.Linked l) (ha : a ∈ l) (hb : b ∈ l)
    (hab : a < b) : s.nextOf a ≠ 0 ∧ s.nextOf a ≤ b := by
  induction l with
  | nil => cases ha
  | cons c l ih =>
    rcases List.mem_cons.mp ha with rfl | ha
    · have hb' : b ∈ l := (List.mem_cons.mp hb).resolve_left (Nat.ne_of_gt hab)
      cases l with
      | nil => cases hb'
      | cons d l =>
        obtain ⟨hn, hlt, hl⟩ := h
        rw [hn]
        rcases List.mem_cons.mp hb' with rfl | hb'
        · exact ⟨by omega, le_rfl⟩
        · exact ⟨by omega, (hl.lt_of_mem hb').le⟩
    · have hb' : b ∈ l := (List.mem_cons.mp hb).resolve_left
        (Nat.ne_of_gt ((h.lt_of_mem ha).trans hab))
      exact ih h.tail_linked ha hb'

/-- Only the highest segment of a linked list has a null `next`. -/
theorem Linked.le_of_next_eq_zero {a b : Nat} {l : List Nat} (h : s.Linked l) (ha : a ∈ l)
    (hn : s.nextOf a = 0) (hb : b ∈ l) : b ≤ a :=
  Nat.le_of_not_lt fun hab => (h.next_le ha hb hab).1 hn

theorem Linked.congr {s' : Shared V} {l : List Nat} (h : s.Linked l)
    (hn : ∀ a ∈ l, s'.nextOf a = s.nextOf a) : s'.Linked l := by
  induction l with
  | nil => trivial
  | cons a l ih =>
    cases l with
    | nil => exact (hn a (List.mem_singleton_self a)).trans h
    | cons b l =>
      exact ⟨(hn a (List.mem_cons_self _ _)).trans h.1, h.2.1,
        ih h.2.2 fun c hc => hn c (List.mem_cons_of_mem _ hc)⟩

/-- Linking `n` behind the last segment `x` of a linked list. -/
theorem Linked.snoc {s' : Shared V} {l : List Nat} {x n : Nat} (h : s.Linked (l ++ [x]))
    (hxn : x < n) (hx : s'.nextOf x = n) (hn : s'.nextOf n = 0)
    (hsame : ∀ a ∈ l, s'.nextOf a = s.nextOf a) : s'.Linked (l ++ [x, n]) := by
  induction l with
  | nil => exact ⟨hx, hxn, hn⟩
  | cons a l ih =>
    cases l with
    | nil => exact ⟨(hsame a (List.mem_singleton_self a)).trans h.1, h.2.1, hx, hxn, hn⟩
    | cons b l =>
      exact ⟨(hsame a (List.mem_cons_self _ _)).trans h.1, h.2.1,
        ih h.2.2 fun c hc => hsame c (List.mem_cons_of_mem _ hc)⟩

/-- Following `next` from a segment of a linked list of non-null segments visits the segments
    of the list from it on. -/
theorem Linked.reachFrom_eq {l : List Nat} (h : s.Linked l) (hpos : ∀ x ∈ l, 0 < x) :
    ∀ {a fuel : Nat}, a ∈ l → l.length ≤ fuel → s.reachFrom fuel a = l.filter (a ≤ ·) := by
  induction l with
  | nil => intro a _ ha; cases ha
  | cons c l ih =>
    intro a fuel ha hf
    obtain ⟨f, rfl⟩ : ∃ f, fuel = f + 1 := ⟨fuel - 1, by simp at hf; omega⟩
    have hlt : ∀ x ∈ l, c < x := fun x hx => h.lt_of_mem hx
    rcases List.mem_cons.mp ha with rfl | ha
    · have hfl : l.filter (a ≤ ·) = l := List.filter_eq_self.mpr fun x hx => by
        simpa using (hlt x hx).le
      rw [reachFrom, if_neg (hpos a (List.mem_cons_self _ _)).ne', List.filter_cons_of_pos (by simp), hfl]
      cases l with
      | nil =>
        rw [show s.nextOf a = 0 from h]
        cases f <;> rfl
      | cons d l =>
        rw [h.1, ih h.2.2 (fun x hx => hpos x (List.mem_cons_of_mem _ hx)) (List.mem_cons_self _ _)
          (by simpa using hf)]
        congr 1
        exact List.filter_eq_self.mpr fun x hx => by
          rcases List.mem_cons.mp hx with rfl | hx
          · simp
          · simpa using (h.2.2.lt_of_mem hx).le
    · have hca : ¬ a ≤ c := Nat.not_le.mpr (hlt a ha)
      rw [List.filter_cons_of_neg (by simpa using hca)]
      exact ih h.tail_linked (fun x hx => hpos x (List.mem_cons_of_mem _ hx)) ha
        (by simp at hf; omega)

/-- The linked segments, at most `bound` of them, are the segments reachable from `head`. -/
theorem Shape.reach_eq (hs : s.Shape) : s.reach = s.hist.chain.filter (s.head ≤ ·) := by
  have hpos : ∀ x ∈ s.hist.chain, 0 < x := fun x hx => (hs.seg_fresh x (hs.chain_seg x hx)).1
  have hlen : s.hist.chain.length ≤ s.bound := by
    simpa using (List.subperm_of_subset hs.linked.nodup fun x hx => List.mem_range.mpr
      (hs.seg_fresh x (hs.chain_seg x hx)).2).length_le
  exact hs.linked.reachFrom_eq hpos hs.head_mem hlen

theorem Shape.mem_reach (hs : s.Shape) {a : Nat} :
    a ∈ s.reach ↔ a ∈ s.hist.chain ∧ s.head ≤ a := by
  simp [hs.reach_eq]

theorem Grows.head_le {s' : Shared V} (g : Grows s s') (hs : s.Shape) : s.head ≤ s'.head := by
  rcases g.head_step with h | ⟨hn, h⟩
  · exact h.ge
  · exact h ▸ (hs.linked.next_mem hs.head_mem hn).2.le

theorem Grows.tail_le {s' : Shared V} (g : Grows s s') (hs : s.Shape) : s.tail ≤ s'.tail := by
  rcases g.tail_step with h | ⟨hn, h⟩
  · exact h.ge
  · exact h ▸ (hs.linked.next_mem hs.tail_mem hn).2.le

theorem Grows.chain_mem {s' : Shared V} (g : Grows s s') {a : Nat} (ha : a ∈ s.hist.chain) :
    a ∈ s'.hist.chain :=
  g.chain_prefix.subset ha

/-! ## Each memory operation keeps the shape -/

theorem Grows.refl (s : Shared V) : Grows s s :=
  ⟨rfl, List.prefix_refl _, fun _ _ _ _ => rfl, .inl rfl, .inl rfl, fun _ _ => rfl,
    fun _ _ _ => rfl, fun _ h => h⟩

/-- An operation that leaves the queue's memory and the chain as they are: one that writes only
    the rest of the history. -/
theorem Shape.of_same {s' : Shared V} (hs : s.Shape) (hk : s'.k = s.k) (hh : s'.head = s.head)
    (ht : s'.tail = s.tail) (hsegs : s'.segs = s.segs) (hboxes : s'.boxes = s.boxes)
    (hb : s'.bound = s.bound) (hc : s'.hist.chain = s.hist.chain) : s'.Shape ∧ Grows s s' := by
  have hn : ∀ x, s'.nextOf x = s.nextOf x := fun x => by simp only [nextOf, hsegs]
  have hd : ∀ x, s'.deletedOf x = s.deletedOf x := fun x => by simp only [deletedOf, hsegs]
  have hbox : ∀ p, s'.IsBox p ↔ s.IsBox p := fun p => by simp only [IsBox, hboxes]
  refine ⟨⟨?_, ?_, ?_, ?_, ?_, ?_, ?_, ?_, ?_, ?_⟩,
    ⟨hk, hc ▸ List.prefix_refl _, fun _ _ _ _ => hc, .inl hh, .inl ht, fun a _ => hn a,
      fun a _ _ => congrFun hsegs a, fun p h => (hbox p).mpr h⟩⟩
  · rw [hc]; exact hs.linked.congr fun a _ => hn a
  · rw [hc, hh]; exact hs.head_mem
  · rw [hc, ht]; exact hs.tail_mem
  · rw [hh, ht]; exact hs.head_le_tail
  · intro a ha hle
    rw [hd]; exact hs.undeleted a (hc ▸ ha) (hh ▸ hle)
  · intro a ha
    rw [hsegs]; exact hs.chain_seg a (hc ▸ ha)
  · intro a h
    rw [hc]; exact hs.unlinked a (hn a ▸ h)
  · intro a sg h
    rw [hsegs] at h
    obtain ⟨hl, hp⟩ := hs.slots a sg h
    exact ⟨hk ▸ hl, fun p h => (hbox p).mpr (hp p h)⟩
  · intro a h
    rw [hb]; exact hs.seg_fresh a (hsegs ▸ h)
  · intro p h
    rw [hb]; exact hs.box_fresh p ((hbox p).mp h)

theorem Shape.newBox (hs : s.Shape) (c : Option V) : (s.newBox c).Shape ∧ Grows s (s.newBox c) := by
  have hbox : ∀ p, s.IsBox p → (s.newBox c).IsBox p := fun p h => by
    unfold IsBox at h ⊢
    simp only [Shared.newBox, store_apply]
    split_ifs <;> simp [h]
  have hbpos : 0 < s.bound := Nat.zero_lt_of_lt (hs.seg_fresh _ (hs.chain_seg _ hs.head_mem)).2
  refine ⟨⟨hs.linked.congr fun _ _ => rfl, hs.head_mem, hs.tail_mem, hs.head_le_tail, hs.undeleted,
    hs.chain_seg, hs.unlinked, fun a sg h => ?_, fun a h => ?_, fun p h => ?_⟩,
    ⟨rfl, List.prefix_refl _, fun _ _ _ _ => rfl, .inl rfl, .inl rfl, fun _ _ => rfl,
      fun _ _ _ => rfl, hbox⟩⟩
  · obtain ⟨hl, hp⟩ := hs.slots a sg h
    exact ⟨hl, fun p hp' => hbox p (hp p hp')⟩
  · have := hs.seg_fresh a h
    exact ⟨this.1, Nat.lt_succ_of_lt this.2⟩
  · unfold IsBox at h
    simp only [Shared.newBox, store_apply] at h
    split_ifs at h with hp
    · exact ⟨hp ▸ hbpos, hp ▸ Nat.lt_succ_self _⟩
    · have := hs.box_fresh p h
      exact ⟨this.1, Nat.lt_succ_of_lt this.2⟩

theorem isSome_of_nextOf_ne_zero {a : Nat} (h : s.nextOf a ≠ 0) : (s.segs a).isSome := by
  unfold nextOf at h
  cases hs : s.segs a with
  | none => simp [hs] at h
  | some _ => rfl

theorem Shape.bound_pos (hs : s.Shape) : 0 < s.bound :=
  Nat.zero_lt_of_lt (hs.seg_fresh _ (hs.chain_seg _ hs.head_mem)).2

theorem Shape.newSegment (hs : s.Shape) : s.newSegment.Shape ∧ Grows s s.newSegment := by
  have hne : ∀ a, (s.segs a).isSome → a ≠ s.freshSeg := fun a h => by
    have := (hs.seg_fresh a h).2
    unfold freshSeg
    omega
  have hcne : ∀ a ∈ s.hist.chain, a ≠ s.freshSeg := fun a ha => hne a (hs.chain_seg a ha)
  have hbox : ∀ p, s.IsBox p → s.newSegment.IsBox p := fun p h => by
    unfold IsBox at h ⊢
    simp only [Shared.newSegment]
    split_ifs <;> simp [h]
  have hF : s.newSegment.segs s.freshSeg = some ⟨List.range' s.bound s.k, 0, false⟩ := store_same ..
  have hbpos := hs.bound_pos
  refine ⟨⟨hs.linked.congr fun a ha => nextOf_newSegment_ne _ (hcne a ha), hs.head_mem,
    hs.tail_mem, hs.head_le_tail,
    fun a ha hle => (deletedOf_newSegment_ne _ (hcne a ha)).trans (hs.undeleted a ha hle),
    fun a ha => ?_, fun a h => ?_, fun a sg h => ?_, fun a h => ?_, fun p h => ?_⟩,
    ⟨rfl, List.prefix_refl _, fun _ _ _ _ => rfl, .inl rfl, .inl rfl,
      fun a h => nextOf_newSegment_ne _ (hne a (isSome_of_nextOf_ne_zero h)),
      fun a h _ => store_ne _ (hne a h), hbox⟩⟩
  · simp only [Shared.newSegment, store_ne _ (hcne a ha)]
    exact hs.chain_seg a ha
  · by_cases haF : a = s.freshSeg
    · simp [nextOf, haF, hF] at h
    · exact hs.unlinked a (nextOf_newSegment_ne s haF ▸ h)
  · by_cases haF : a = s.freshSeg
    · rw [haF, hF, Option.some_inj] at h
      subst h
      refine ⟨List.length_range' .., fun p hp => ?_⟩
      rw [List.mem_range'_1] at hp
      simp only [IsBox, Shared.newSegment, freshSeg, if_pos hp, Option.isSome_some]
    · simp only [Shared.newSegment, store_ne _ haF] at h
      obtain ⟨hl, hp⟩ := hs.slots a sg h
      exact ⟨hl, fun p h => hbox p (hp p h)⟩
  · by_cases haF : a = s.freshSeg
    · subst haF
      exact ⟨by unfold freshSeg; omega, Nat.lt_succ_self _⟩
    · simp only [Shared.newSegment, store_ne _ haF] at h
      have := hs.seg_fresh a h
      exact ⟨this.1, by simp only [Shared.newSegment, freshSeg]; omega⟩
  · unfold IsBox at h
    simp only [Shared.newSegment] at h ⊢
    split_ifs at h with hp
    · exact ⟨by omega, by unfold freshSeg at hp ⊢; omega⟩
    · have := hs.box_fresh p h
      exact ⟨this.1, by unfold freshSeg; omega⟩

theorem Shape.setSlot (hs : s.Shape) {a i p : Nat} (ha : a ∈ s.hist.chain) (hp : s.IsBox p) :
    (s.setSlot a i p).Shape ∧ Grows s (s.setSlot a i p) := by
  refine ⟨⟨hs.linked.congr fun x _ => nextOf_setSlot .., hs.head_mem, hs.tail_mem,
    hs.head_le_tail, fun x hx hle => (deletedOf_setSlot ..).trans (hs.undeleted x hx hle),
    fun x hx => (setSlot_isSome ..).trans (hs.chain_seg x hx),
    fun x h => hs.unlinked x (nextOf_setSlot .. ▸ h), fun x sg h => ?_,
    fun x h => hs.seg_fresh x ((setSlot_isSome ..).symm.trans h), hs.box_fresh⟩,
    ⟨rfl, List.prefix_refl _, fun _ _ _ _ => rfl, .inl rfl, .inl rfl, fun x _ => nextOf_setSlot ..,
      fun x _ hx => by
        rw [Shared.setSlot, modifySeg_segs, if_neg (ne_of_mem_of_not_mem ha hx).symm],
      fun _ h => h⟩⟩
  rw [Shared.setSlot, modifySeg_segs] at h
  split_ifs at h with hxa
  · subst hxa
    obtain ⟨sg₀, h₀, rfl⟩ := Option.map_eq_some'.mp h
    obtain ⟨hl, hbox⟩ := hs.slots x sg₀ h₀
    refine ⟨(List.length_set ..).trans hl, fun q hq => ?_⟩
    rcases List.mem_or_eq_of_mem_set hq with hq | rfl
    · exact hbox q hq
    · exact hp
  · exact hs.slots x sg h

theorem Shape.setDeleted (hs : s.Shape) {a : Nat} (ha : a ∈ s.hist.chain) (hlt : a < s.head) :
    (s.setDeleted a).Shape ∧ Grows s (s.setDeleted a) := by
  refine ⟨⟨hs.linked.congr fun x _ => nextOf_setDeleted .., hs.head_mem, hs.tail_mem,
    hs.head_le_tail, fun x hx hle => ?_, fun x hx => (setDeleted_isSome ..).trans (hs.chain_seg x hx),
    fun x h => hs.unlinked x (nextOf_setDeleted .. ▸ h), fun x sg h => ?_,
    fun x h => hs.seg_fresh x ((setDeleted_isSome ..).symm.trans h), hs.box_fresh⟩,
    ⟨rfl, List.prefix_refl _, fun _ _ _ _ => rfl, .inl rfl, .inl rfl, fun x _ => nextOf_setDeleted ..,
      fun x _ hx => by
        rw [Shared.setDeleted, modifySeg_segs, if_neg (ne_of_mem_of_not_mem ha hx).symm],
      fun _ h => h⟩⟩
  · have : s.head ≤ x := hle
    rw [Shared.setDeleted, deletedOf_modifySeg_ne _ _ _ (by omega)]
    exact hs.undeleted x hx hle
  · rw [Shared.setDeleted, modifySeg_segs] at h
    split_ifs at h with hxa
    · subst hxa
      obtain ⟨sg₀, h₀, rfl⟩ := Option.map_eq_some'.mp h
      exact hs.slots x sg₀ h₀
    · exact hs.slots x sg h

/-- What a thread about to link `n` knows while the `next` it read stays null: `n` is a
    segment above every linked one, with a null `next`, not deleted. -/
def Fresh (s : Shared V) (n : Nat) : Prop :=
  (∀ a ∈ s.hist.chain, a < n) ∧ ∃ d, s.segs n = some ⟨d, 0, false⟩

theorem Shape.linkNext (hs : s.Shape) {old n : Nat} (ho : old ∈ s.hist.chain)
    (hz : s.nextOf old = 0) (hn : s.Fresh n) :
    (s.linkNext old n).Shape ∧ Grows s (s.linkNext old n) := by
  obtain ⟨hlt, d, hd⟩ := hn
  have hmax : ∀ a ∈ s.hist.chain, a ≤ old := fun a ha => hs.linked.le_of_next_eq_zero ho hz ha
  have hon : old < n := hlt old ho
  have hoseg : (s.segs old).isSome := hs.chain_seg old ho
  -- `old` is the last linked segment
  obtain ⟨L, x, hLx⟩ := (List.eq_nil_or_concat _).resolve_left (List.ne_nil_of_mem ho)
  rw [List.concat_eq_append] at hLx
  have hLlt : ∀ a ∈ L, a < x := fun a ha =>
    (List.pairwise_append.mp (hLx ▸ hs.linked.pairwise)).2.2 a ha x (List.mem_singleton_self x)
  have hxo : x = old := by
    have hx : x ≤ old := hmax x (hLx ▸ List.mem_append_right _ (List.mem_singleton_self x))
    rcases List.mem_append.mp (hLx ▸ ho) with ho' | ho'
    · exact absurd (hLlt old ho') (by omega)
    · exact (List.mem_singleton.mp ho').symm
  subst hxo
  have hnext : ∀ a, a ≠ x → (s.linkNext x n).nextOf a = s.nextOf a := fun a h =>
    nextOf_linkNext_ne s n h
  have hmem : ∀ a, a ∈ (s.linkNext x n).hist.chain ↔ a ∈ s.hist.chain ∨ a = n := fun a => by
    simp [Shared.linkNext]
  have hsegs : ∀ a, a ≠ x → (s.linkNext x n).segs a = s.segs a := fun a h => by
    rw [show (s.linkNext x n).segs = (s.modifySeg x fun sg => { sg with next := n }).segs from rfl,
      modifySeg_segs, if_neg h]
  refine ⟨⟨?_, (hmem _).mpr (.inl hs.head_mem), (hmem _).mpr (.inl hs.tail_mem),
    hs.head_le_tail, fun a ha hle => ?_, fun a ha => ?_, fun a h => ?_, fun a sg h => ?_,
    fun a h => hs.seg_fresh a ((linkNext_isSome ..).symm.trans h), hs.box_fresh⟩,
    ⟨rfl, List.prefix_append _ _, fun a ha h0 h0' => ?_, .inl rfl, .inl rfl,
      fun a h => hnext a fun hax => h (hax ▸ hz),
      fun a _ ha => hsegs a fun hax => ha (hax ▸ (hmem x).mpr (.inl ho)),
      fun _ h => h⟩⟩
  · rw [show (s.linkNext x n).hist.chain = L ++ [x, n] by simp [Shared.linkNext, hLx]]
    refine (hLx ▸ hs.linked).snoc hon (nextOf_linkNext_self s n hoseg) ?_
      fun a ha => hnext a (Nat.ne_of_lt (hLlt a ha))
    rw [hnext n (Nat.ne_of_gt hon)]
    simp [nextOf, hd]
  · rw [deletedOf_linkNext]
    rcases (hmem a).mp ha with ha | rfl
    · exact hs.undeleted a ha hle
    · simp [deletedOf, hd]
  · rw [linkNext_isSome]
    rcases (hmem a).mp ha with ha | rfl
    · exact hs.chain_seg a ha
    · simp [hd]
  · refine (hmem a).mpr (.inl ?_)
    by_cases hax : a = x
    · exact hax ▸ ho
    · exact hs.unlinked a (hnext a hax ▸ h)
  · by_cases hax : a = x
    · subst hax
      rw [show (s.linkNext a n).segs = (s.modifySeg a fun sg => { sg with next := n }).segs
        from rfl, modifySeg_segs, if_pos rfl] at h
      obtain ⟨sg₀, h₀, rfl⟩ := Option.map_eq_some'.mp h
      exact hs.slots a sg₀ h₀
    · exact hs.slots a sg (hsegs a hax ▸ h)
  · have hax : a = x := le_antisymm (hmax a ha) (hs.linked.le_of_next_eq_zero ha h0 ho)
    rw [hax, nextOf_linkNext_self s n hoseg] at h0'
    omega

theorem Shape.casTail (hs : s.Shape) {old x : Nat} (h : s.tail = old → x ≠ 0 ∧ s.nextOf old = x) :
    (s.casTail old x).Shape ∧ Grows s (s.casTail old x) := by
  unfold Shared.casTail
  split_ifs with ht
  · obtain ⟨hx0, hx⟩ := h ht
    subst ht hx
    obtain ⟨hmem, hlt⟩ := hs.linked.next_mem hs.tail_mem hx0
    exact ⟨⟨hs.linked.congr fun _ _ => rfl, hs.head_mem, hmem, by have := hs.head_le_tail; simp only; omega,
      hs.undeleted, hs.chain_seg, hs.unlinked, hs.slots, hs.seg_fresh, hs.box_fresh⟩,
      ⟨rfl, List.prefix_refl _, fun _ _ _ _ => rfl, .inl rfl, .inr ⟨hx0, rfl⟩, fun _ _ => rfl,
        fun _ _ _ => rfl, fun _ h => h⟩⟩
  · exact ⟨hs, Grows.refl s⟩

/-- `head.compare_exchange(head, hn)` succeeding, where `hn` is `head.next` and not past `tail`. -/
theorem Shape.swingHead (hs : s.Shape) {hn : Nat} (h0 : hn ≠ 0) (hnext : s.nextOf s.head = hn)
    (hle : hn ≤ s.tail) : ({ s with head := hn } : Shared V).Shape ∧ Grows s { s with head := hn } := by
  subst hnext
  obtain ⟨hmem, hlt⟩ := hs.linked.next_mem hs.head_mem h0
  exact ⟨⟨hs.linked.congr fun _ _ => rfl, hmem, hs.tail_mem, hle, fun a ha hle' => hs.undeleted a ha (by simp at hle'; omega),
    hs.chain_seg, hs.unlinked, hs.slots, hs.seg_fresh, hs.box_fresh⟩,
    ⟨rfl, List.prefix_refl _, fun _ _ _ _ => rfl, .inr ⟨h0, rfl⟩, .inl rfl, fun _ _ => rfl,
      fun _ _ _ => rfl, fun _ h => h⟩⟩

theorem Shape.replaceBox (hs : s.Shape) {p : Nat} (hp : s.IsBox p) :
    (s.replaceBox p).Shape ∧ Grows s (s.replaceBox p) := by
  have hbox : ∀ q, (s.replaceBox p).IsBox q ↔ s.IsBox q := fun q => by
    unfold IsBox at hp ⊢
    simp only [Shared.replaceBox, store_apply]
    split_ifs with hq
    · subst hq; simp [hp]
    · rfl
  exact ⟨⟨hs.linked.congr fun _ _ => rfl, hs.head_mem, hs.tail_mem, hs.head_le_tail, hs.undeleted,
    hs.chain_seg, hs.unlinked, fun a sg h => (hs.slots a sg h).imp_right fun h q hq => (hbox q).mpr (h q hq),
    hs.seg_fresh, fun q h => hs.box_fresh q ((hbox q).mp h)⟩,
    ⟨rfl, List.prefix_refl _, fun _ _ _ _ => rfl, .inl rfl, .inl rfl, fun _ _ => rfl,
      fun _ _ _ => rfl, fun q h => (hbox q).mpr h⟩⟩

end Shared

end Rustcurrent.SegQueue
