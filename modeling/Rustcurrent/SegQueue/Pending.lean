import Mathlib.Data.List.Sort
import Rustcurrent.SegQueue.Solo

/-!
# The items in the queue

The abstract queue of a memory: the boxes that hold an item and sit in a slot of a segment
reachable from `head` (`Pending`), in the order of their addresses (`pendingBoxes`), and their
values (`pending`). The allocator hands out increasing addresses, so this is the order in which
the items were boxed by their enqueue calls.

`Retains s s'` says that `s'` has the items of `s`, with their values. Each operation that a call
running alone performs is either one that retains (the clock, the history, a new box, a new
segment behind `tail`, `head` moved past a segment without items) or one of the two that change
the queue: an item stored into a free slot, and an item taken out of its slot.
-/

namespace Rustcurrent.SegQueue

namespace Shared

variable {V : Type} (s : Shared V)

/-- The box `a` holds an item and sits in a slot of a segment reachable from `head`. -/
def Pending (a : Nat) : Bool := (s.boxAt a).isSome && decide (a ∈ s.held)

/-- The boxes of the items in the queue, at increasing addresses. -/
def pendingBoxes : List Nat := (List.range s.bound).filter s.Pending

/-- The values of the items in the queue, the first boxed first. -/
def pending : List V := s.pendingBoxes.filterMap s.boxAt

variable {s}

theorem pending_eq_true {a : Nat} : s.Pending a = true ↔ (s.boxAt a).isSome ∧ a ∈ s.held := by
  simp [Pending]

theorem pendingBoxes_pairwise : s.pendingBoxes.Pairwise (· < ·) :=
  (List.pairwise_lt_range _).filter _

/-! ## What the operations of a call write -/

@[simp] theorem boxAt_ticks (n x : Nat) : (s.ticks n).boxAt x = s.boxAt x := rfl

@[simp] theorem boxAt_tick (x : Nat) : s.tick.boxAt x = s.boxAt x := rfl

@[simp] theorem boxAt_setSlot (a i p x : Nat) : (s.setSlot a i p).boxAt x = s.boxAt x := rfl

@[simp] theorem boxAt_enqueueReturn (b x : Nat) : (s.enqueueReturn b).boxAt x = s.boxAt x := rfl

@[simp] theorem boxAt_noteTaken (p x : Nat) : (s.noteTaken p).boxAt x = s.boxAt x := rfl

theorem boxAt_newBox (c : Option V) (x : Nat) :
    (s.newBox c).boxAt x = if x = s.bound then c else s.boxAt x := by
  simp only [boxAt, Shared.newBox, store_apply]
  split_ifs <;> rfl

theorem boxAt_replaceBox (p x : Nat) : (s.replaceBox p).boxAt x = if x = p then none else s.boxAt x := by
  simp only [boxAt, replaceBox, store_apply]
  split_ifs <;> rfl

@[simp] theorem nextOf_ticks (n x : Nat) : (s.ticks n).nextOf x = s.nextOf x := rfl

@[simp] theorem nextOf_tick (x : Nat) : s.tick.nextOf x = s.nextOf x := rfl

@[simp] theorem nextOf_newBox (c : Option V) (x : Nat) : (s.newBox c).nextOf x = s.nextOf x := rfl

@[simp] theorem nextOf_enqueueReturn (b x : Nat) : (s.enqueueReturn b).nextOf x = s.nextOf x := rfl

@[simp] theorem nextOf_noteTaken (p x : Nat) : (s.noteTaken p).nextOf x = s.nextOf x := rfl

@[simp] theorem nextOf_replaceBox (p x : Nat) : (s.replaceBox p).nextOf x = s.nextOf x := rfl

/-! ## Reading the queue off a memory of the right shape -/

theorem Shape.mem_held (hs : s.Shape) {a : Nat} :
    a ∈ s.held ↔ ∃ x ∈ s.hist.chain, s.head ≤ x ∧ a ∈ s.segData x := by
  simp only [held, List.mem_flatMap, hs.mem_reach, and_assoc]

theorem Shape.lt_bound_of_boxAt (hs : s.Shape) {a : Nat} (h : (s.boxAt a).isSome) : a < s.bound := by
  refine (hs.box_fresh a ?_).2
  unfold boxAt at h
  unfold IsBox
  cases hb : s.boxes a <;> simp_all

/-- Every box in a slot of a linked segment was allocated. -/
theorem Shape.lt_bound_of_mem_segData (hs : s.Shape) {a x : Nat} (ha : a ∈ s.segData x) :
    a < s.bound := by
  unfold segData at ha
  cases hsg : s.segs x with
  | none => simp [hsg] at ha
  | some sg =>
    simp only [hsg, Option.map_some', Option.getD_some] at ha
    exact (hs.box_fresh a ((hs.slots x sg hsg).2 a ha)).2

theorem Shape.boxAt_eq_none (hs : s.Shape) {a : Nat} (h : s.bound ≤ a) : s.boxAt a = none :=
  Option.not_isSome_iff_eq_none.mp fun hb => Nat.not_le.mpr (hs.lt_bound_of_boxAt hb) h

theorem Shape.mem_pendingBoxes (hs : s.Shape) {a : Nat} : a ∈ s.pendingBoxes ↔ s.Pending a = true := by
  simp only [pendingBoxes, List.mem_filter, List.mem_range, and_iff_right_iff_imp]
  exact fun h => hs.lt_bound_of_boxAt (pending_eq_true.mp h).1

/-- The queue is the increasing list of the pending boxes. -/
theorem Shape.pendingBoxes_eq (hs : s.Shape) {l : List Nat} (hl : l.Pairwise (· < ·))
    (h : ∀ a, s.Pending a = true ↔ a ∈ l) : s.pendingBoxes = l :=
  List.eq_of_perm_of_sorted
    ((List.perm_ext_iff_of_nodup (pendingBoxes_pairwise.imp Nat.ne_of_lt) (hl.imp Nat.ne_of_lt)).mpr
      fun a => hs.mem_pendingBoxes.trans (h a))
    pendingBoxes_pairwise hl

/-! ## Operations that keep the queue -/

/-- `s'` has the items of `s`, with their values. -/
structure Retains (s s' : Shared V) : Prop where
  same : ∀ a, s'.Pending a = s.Pending a
  value : ∀ a, s.Pending a = true → s'.boxAt a = s.boxAt a

theorem Retains.refl (s : Shared V) : Retains s s := ⟨fun _ => rfl, fun _ _ => rfl⟩

theorem Retains.trans {s₂ s₃ : Shared V} (h₁ : Retains s s₂) (h₂ : Retains s₂ s₃) : Retains s s₃ :=
  ⟨fun a => (h₂.same a).trans (h₁.same a),
    fun a ha => (h₂.value a ((h₁.same a).trans ha)).trans (h₁.value a ha)⟩

/-- A memory that retains the items has the same queue. -/
theorem Retains.pending_eq {s' : Shared V} (hs : s.Shape) (hs' : s'.Shape) (h : Retains s s') :
    s'.pending = s.pending := by
  have hb : s'.pendingBoxes = s.pendingBoxes :=
    hs'.pendingBoxes_eq pendingBoxes_pairwise fun a => by rw [h.same, hs.mem_pendingBoxes]
  rw [pending, pending, hb]
  exact List.filterMap_congr fun a ha => h.value a (hs.mem_pendingBoxes.mp ha)

/-- `reachFrom` reads only `next`. -/
theorem reachFrom_congr {s' : Shared V} (h : ∀ a, s'.nextOf a = s.nextOf a) :
    ∀ fuel a, s'.reachFrom fuel a = s.reachFrom fuel a
  | 0, _ => rfl
  | fuel + 1, a => by simp only [reachFrom, h, reachFrom_congr h fuel]

/-- An operation that writes neither the segments nor the boxes, `head` nor the allocator. -/
theorem retains_of_memory {s' : Shared V} (hseg : s'.segs = s.segs) (hbox : s'.boxes = s.boxes)
    (hb : s'.bound = s.bound) (hh : s'.head = s.head) : Retains s s' := by
  have hsd : s'.segData = s.segData := funext fun a => by simp only [segData, hseg]
  have hheld : s'.held = s.held := by
    have hr := @reachFrom_congr V s s' fun a => by simp only [nextOf, hseg]
    simp only [held, reach, hsd, hb, hh, hr]
  refine ⟨fun a => ?_, fun a _ => ?_⟩ <;> simp only [Pending, boxAt, hheld, hbox]

theorem retains_ticks (n : Nat) : Retains s (s.ticks n) := retains_of_memory rfl rfl rfl rfl

theorem retains_tick : Retains s s.tick := retains_of_memory rfl rfl rfl rfl

theorem Shape.retains_newBox (hs : s.Shape) (c : Option V) : Retains s (s.newBox c) := by
  have hheld : ∀ a, a ∈ (s.newBox c).held ↔ a ∈ s.held := fun a =>
    ((hs.newBox c).1.mem_held).trans hs.mem_held.symm
  have hbox : ∀ a, a ≠ s.bound → (s.newBox c).boxAt a = s.boxAt a := fun a ha => by
    simp only [boxAt, Shared.newBox, store_ne _ ha]
  have hout : s.bound ∉ s.held := fun h => by
    obtain ⟨x, -, -, hx⟩ := hs.mem_held.mp h
    exact Nat.lt_irrefl _ (hs.lt_bound_of_mem_segData hx)
  refine ⟨fun a => ?_, fun a ha => hbox a fun h => ?_⟩
  · by_cases ha : a = s.bound
    · subst ha
      simp [Pending, hheld, hout]
    · simp only [Pending, hheld, hbox a ha]
  · exact Nat.lt_irrefl _ (h ▸ hs.lt_bound_of_boxAt (pending_eq_true.mp ha).1)

/-- `segData` reads only the slots. -/
theorem segData_modifySeg {a : Nat} {f : Segment → Segment} (x : Nat) :
    (s.modifySeg a f).segData x = if x = a then ((s.segs a).map fun sg => (f sg).data).getD []
      else s.segData x := by
  unfold segData
  rw [modifySeg_segs]
  split_ifs with hx
  · cases s.segs a <;> rfl
  · rfl

theorem segData_setSlot (a i p x : Nat) :
    (s.setSlot a i p).segData x = if x = a then (s.segData a).set i p else s.segData x := by
  rw [Shared.setSlot, segData_modifySeg]
  split_ifs
  · unfold segData
    cases s.segs a <;> rfl
  · rfl

/-- Writing a field other than the slots keeps every segment's slots. -/
theorem segData_modifySeg_of {a : Nat} {f : Segment → Segment} (hf : ∀ sg, (f sg).data = sg.data)
    (x : Nat) : (s.modifySeg a f).segData x = s.segData x := by
  rw [segData_modifySeg]
  split_ifs with hx
  · subst hx
    unfold segData
    cases s.segs x <;> simp [hf]
  · rfl

@[simp] theorem segData_setDeleted (a x : Nat) : (s.setDeleted a).segData x = s.segData x :=
  @segData_modifySeg_of V s a (fun sg => { sg with deleted := true }) (fun _ => rfl) x

@[simp] theorem segData_linkNext (a n x : Nat) : (s.linkNext a n).segData x = s.segData x :=
  @segData_modifySeg_of V s a (fun sg => { sg with next := n }) (fun _ => rfl) x

theorem slot_eq_getD (a i : Nat) : s.slot a i = ((s.segData a)[i]?).getD 0 := by
  unfold slot segData
  cases s.segs a <;> rfl

/-- Storing `x` into slot `i` changes the membership of only `x` and of the box it replaces. -/
theorem mem_set_iff {l : List Nat} {i x a : Nat} (hx : a ≠ x) (hi : l[i]? ≠ some a) :
    a ∈ l.set i x ↔ a ∈ l := by
  refine ⟨fun h => (List.mem_or_eq_of_mem_set h).resolve_right hx, fun h => ?_⟩
  obtain ⟨n, hn, rfl⟩ := List.mem_iff_getElem.mp h
  have hni : i ≠ n := fun h => hi (by subst h; exact List.getElem?_eq_getElem hn)
  exact List.mem_iff_getElem.mpr ⟨n, by simpa using hn, by rw [List.getElem_set_ne hni]⟩

/-- Two memories of the right shape, with the same chain and `head`, hold a box in the same
    segments. -/
theorem Shape.mem_held_iff {s' : Shared V} (hs : s.Shape) (hs' : s'.Shape)
    (hc : s'.hist.chain = s.hist.chain) (hh : s'.head = s.head) {a : Nat}
    (hd : ∀ x ∈ s.hist.chain, s.head ≤ x → (a ∈ s'.segData x ↔ a ∈ s.segData x)) :
    a ∈ s'.held ↔ a ∈ s.held := by
  rw [hs'.mem_held, hs.mem_held, hc, hh]
  exact exists_congr fun x => and_congr_right fun hx => and_congr_right fun hle => hd x hx hle

/-- A property of every slot of a linked segment holds of every box in it. -/
theorem Shape.forall_segData (hs : s.Shape) {h : Nat} (hh : h ∈ s.hist.chain) {P : Nat → Prop}
    (hall : ∀ j < s.k, P (s.slot h j)) : ∀ a ∈ s.segData h, P a := by
  obtain ⟨sg, hsg⟩ := Option.isSome_iff_exists.mp (hs.chain_seg h hh)
  intro a ha
  rw [segData_of_segs hsg] at ha
  obtain ⟨i, hi, rfl⟩ := List.mem_iff_getElem.mp ha
  have := hall i ((hs.slots h sg hsg).1 ▸ hi)
  rwa [slot_eq_getD, segData_of_segs hsg, List.getElem?_eq_getElem hi, Option.getD_some] at this

/-- The box in slot `j < k` of a linked segment is one of its boxes. -/
theorem Shape.slot_mem_segData (hs : s.Shape) {h j : Nat} (hh : h ∈ s.hist.chain) (hj : j < s.k) :
    s.slot h j ∈ s.segData h := by
  obtain ⟨sg, hsg⟩ := Option.isSome_iff_exists.mp (hs.chain_seg h hh)
  have hj' : j < sg.data.length := (hs.slots h sg hsg).1 ▸ hj
  rw [slot_eq_getD, segData_of_segs hsg, List.getElem?_eq_getElem hj', Option.getD_some]
  exact List.getElem_mem hj'

/-! ## The grown queue and the advanced head -/

theorem grow_chain : s.grow.hist.chain = s.hist.chain ++ [s.freshSeg] := rfl

theorem grow_segData_ne {x : Nat} (hx : x ≠ s.freshSeg) : s.grow.segData x = s.segData x := by
  rw [show s.grow.segData x = (s.newSegment.linkNext s.tail s.freshSeg).segData x from rfl,
    segData_linkNext]
  simp only [segData, newSegment, store_ne _ hx]

theorem grow_segData_fresh : s.grow.segData s.freshSeg = List.range' s.bound s.k := by
  rw [show s.grow.segData s.freshSeg = (s.newSegment.linkNext s.tail s.freshSeg).segData s.freshSeg
    from rfl, segData_linkNext]
  simp only [segData, newSegment, store_same, Option.map_some', Option.getD_some]

/-- The slots of the segment `grow` links hold the sentinels `s.bound, ..., s.bound + k - 1`. -/
theorem grow_slot_fresh {j : Nat} (hj : j < s.k) : s.grow.slot s.freshSeg j = s.bound + j := by
  simp [slot_eq_getD, grow_segData_fresh, List.getElem?_range', hj]

/-- `grow` moves `tail` to the new segment, whose `next` is null. -/
theorem grow_tail_next (hF : s.tail ≠ s.freshSeg) : s.grow.nextOf s.grow.tail = 0 := by
  show (s.newSegment.linkNext s.tail s.freshSeg).nextOf s.freshSeg = 0
  rw [nextOf_linkNext_ne _ _ hF.symm]
  simp [nextOf, newSegment]

theorem grow_slot_ne {x : Nat} (hx : x ≠ s.freshSeg) (j : Nat) : s.grow.slot x j = s.slot x j := by
  rw [slot_eq_getD, slot_eq_getD, grow_segData_ne hx]

theorem grow_boxAt (a : Nat) :
    s.grow.boxAt a = if s.bound ≤ a ∧ a < s.freshSeg then none else s.boxAt a := by
  simp only [boxAt, grow, linkNext, modifySeg, newSegment]
  split_ifs <;> rfl

/-- A new segment linked behind `tail` holds only sentinels: the queue keeps its items. -/
theorem Shape.retains_grow (hs : s.Shape) (hg : s.grow.Shape) : Retains s s.grow := by
  have hbox : ∀ a, a < s.bound → s.grow.boxAt a = s.boxAt a := fun a ha => by
    rw [grow_boxAt, if_neg (by omega)]
  have hheld : ∀ a, a < s.bound → (a ∈ s.grow.held ↔ a ∈ s.held) := fun a ha => by
    rw [hg.mem_held, hs.mem_held, grow_chain]
    refine exists_congr fun x => ⟨fun ⟨hx, hle, hax⟩ => ?_, fun ⟨hx, hle, hax⟩ => ?_⟩
    · rcases List.mem_append.mp hx with hx | hx
      · have hne : x ≠ s.freshSeg := by
          have := (hs.seg_fresh x (hs.chain_seg x hx)).2
          unfold freshSeg; omega
        exact ⟨hx, hle, (grow_segData_ne hne) ▸ hax⟩
      · rw [List.mem_singleton.mp hx, grow_segData_fresh, List.mem_range'_1] at hax
        omega
    · have hne : x ≠ s.freshSeg := by
        have := (hs.seg_fresh x (hs.chain_seg x hx)).2
        unfold freshSeg; omega
      exact ⟨List.mem_append_left _ hx, hle, (grow_segData_ne hne).symm ▸ hax⟩
  refine ⟨fun a => ?_, fun a ha => hbox a (hs.lt_bound_of_boxAt (pending_eq_true.mp ha).1)⟩
  by_cases ha : a < s.bound
  · simp only [Pending, hbox a ha, hheld a ha]
  · have h1 : s.grow.boxAt a = none := by
      rw [grow_boxAt]
      split_ifs with h
      · rfl
      · unfold boxAt
        have : s.boxes a = none := by
          by_contra hb
          exact ha (hs.box_fresh a (Option.ne_none_iff_isSome.mp hb)).2
        rw [this]; rfl
    have h2 : s.boxAt a = none := by
      cases hb : s.boxAt a with
      | none => rfl
      | some v => exact absurd (hs.lt_bound_of_boxAt (by simp [hb])) ha
    simp [Pending, h1, h2]

/-- `head` moved one link forward past a segment whose slots hold no item: the queue keeps its
    items. -/
theorem Shape.retains_advance (hs : s.Shape) (ha : ({ s with head := s.nextOf s.head }.setDeleted s.head).Shape)
    (hz : s.nextOf s.head ≠ 0) (hempty : ∀ a ∈ s.segData s.head, s.boxAt a = none) :
    Retains s ({ s with head := s.nextOf s.head }.setDeleted s.head) := by
  have hnext := hs.linked.next_mem hs.head_mem hz
  have hheld : ∀ a, (s.boxAt a).isSome →
      (a ∈ ({ s with head := s.nextOf s.head }.setDeleted s.head).held ↔ a ∈ s.held) := by
    intro a hb
    rw [ha.mem_held, hs.mem_held]
    refine exists_congr fun x => ⟨fun ⟨hx, hle, hax⟩ => ?_, fun ⟨hx, hle, hax⟩ => ?_⟩
    · rw [segData_setDeleted] at hax
      exact ⟨hx, hnext.2.le.trans hle, hax⟩
    · have hne : x ≠ s.head := by
        rintro rfl
        rw [hempty a hax] at hb
        cases hb
      refine ⟨hx, (hs.linked.next_le hs.head_mem hx (lt_of_le_of_ne hle (Ne.symm hne))).2, ?_⟩
      rw [segData_setDeleted]
      exact hax
  refine ⟨fun a => ?_, fun _ _ => rfl⟩
  cases hb : (s.boxAt a).isSome with
  | true => simp only [Pending, show ({ s with head := s.nextOf s.head }.setDeleted s.head).boxAt a = s.boxAt a
      from rfl, hb, hheld a hb]
  | false => simp only [Pending, show ({ s with head := s.nextOf s.head }.setDeleted s.head).boxAt a = s.boxAt a
      from rfl, hb, Bool.false_and]

/-! ## The two operations that change the queue -/

section Change

variable {F : Shared V} (hs : s.Shape) (hF : F.Shape) (hc : F.hist.chain = s.hist.chain)
  (hh : F.head = s.head)
include hs hF hc hh

/-- The item `b`, boxed, stored into the free slot `i` of `tail`: it joins the queue. `F` is the memory after the store, with other boxes allocated. -/
theorem Shape.pending_fill {i b : Nat} (hd : ∀ x, F.segData x = (s.setSlot s.tail i b).segData x)
    (hbox : ∀ a, a ≠ s.bound → F.boxAt a = s.boxAt a) (hnew : F.boxAt s.bound = none)
    (hfree : s.boxAt (s.slot s.tail i) = none) (hi : i < (s.segData s.tail).length)
    (hb : (s.boxAt b).isSome) (a : Nat) :
    F.Pending a = (s.Pending a || a == b) := by
  have hbb : b ≠ s.bound := Nat.ne_of_lt (hs.lt_bound_of_boxAt hb)
  by_cases hab : a = b
  · subst hab
    have hmem : a ∈ F.held := hF.mem_held.mpr ⟨s.tail, hc ▸ hs.tail_mem, hh ▸ hs.head_le_tail, by
      rw [hd, segData_setSlot, if_pos rfl]
      exact List.mem_set _ _ hi _⟩
    simp [Pending, hbox a hbb, hb, hmem]
  · by_cases ha : a = s.bound
    · subst ha
      have hnone : s.boxAt s.bound = none := by
        cases h : s.boxAt s.bound with
        | none => rfl
        | some v => exact absurd (hs.lt_bound_of_boxAt (by simp [h])) (Nat.lt_irrefl _)
      simp [Pending, hnew, hnone, hab]
    · cases hsome : (s.boxAt a).isSome with
      | false => simp [Pending, hbox a ha, hsome, hab]
      | true =>
        have hslot : (s.segData s.tail)[i]? ≠ some a := fun h => by
          rw [slot_eq_getD, h, Option.getD_some] at hfree
          rw [hfree] at hsome
          cases hsome
        have hheld : a ∈ F.held ↔ a ∈ s.held := hs.mem_held_iff hF hc hh fun x _ _ => by
          rw [hd, segData_setSlot]
          split_ifs with hx
          · subst hx; exact mem_set_iff hab hslot
          · exact Iff.rfl
        simp [Pending, hbox a ha, hsome, hheld, hab]

/-- The item `p` in slot `i` of `h` replaced by the sentinel at the fresh address `s.bound`, and
    its box emptied: it leaves the queue. -/
theorem Shape.pending_take {h i p : Nat} (hd : ∀ x, F.segData x = (s.setSlot h i s.bound).segData x)
    (hbox : ∀ a, a ≠ p → a ≠ s.bound → F.boxAt a = s.boxAt a) (hp : F.boxAt p = none)
    (hnew : F.boxAt s.bound = none) (hpi : s.slot h i = p) (a : Nat) :
    F.Pending a = (s.Pending a && a != p) := by
  by_cases hap : a = p
  · subst hap
    simp [Pending, hp]
  · by_cases ha : a = s.bound
    · subst ha
      have hnone : s.boxAt s.bound = none := by
        cases h : s.boxAt s.bound with
        | none => rfl
        | some v => exact absurd (hs.lt_bound_of_boxAt (by simp [h])) (Nat.lt_irrefl _)
      simp [Pending, hnew, hnone]
    · have hslot : (s.segData h)[i]? ≠ some a := fun h' => by
        rw [slot_eq_getD, h', Option.getD_some] at hpi
        exact hap hpi
      have hheld : a ∈ F.held ↔ a ∈ s.held := hs.mem_held_iff hF hc hh fun x _ _ => by
        rw [hd, segData_setSlot]
        split_ifs with hx
        · subst hx; exact mem_set_iff ha hslot
        · exact Iff.rfl
      simp [Pending, hbox a hap ha, hheld, hap]

end Change

/-- The queue after an item joined it behind every item in it. -/
theorem Shape.pendingBoxes_snoc {F : Shared V} (hs : s.Shape) (hF : F.Shape) {b : Nat}
    (h : ∀ a, F.Pending a = (s.Pending a || a == b)) (hlt : ∀ a, s.Pending a = true → a < b) :
    F.pendingBoxes = s.pendingBoxes ++ [b] := by
  refine hF.pendingBoxes_eq (List.pairwise_append.mpr ⟨pendingBoxes_pairwise, List.pairwise_singleton _ _,
    fun a ha c hc => List.mem_singleton.mp hc ▸ hlt a (hs.mem_pendingBoxes.mp ha)⟩) fun a => ?_
  rw [h, List.mem_append, hs.mem_pendingBoxes, List.mem_singleton]
  simp

/-- The queue after an item left it. -/
theorem Shape.pendingBoxes_erase {F : Shared V} (hs : s.Shape) (hF : F.Shape) {p : Nat}
    (h : ∀ a, F.Pending a = (s.Pending a && a != p)) :
    F.pendingBoxes = s.pendingBoxes.erase p := by
  have hnd : s.pendingBoxes.Nodup := pendingBoxes_pairwise.imp Nat.ne_of_lt
  refine hF.pendingBoxes_eq (pendingBoxes_pairwise.sublist (List.erase_sublist _ _)) fun a => ?_
  rw [h, hnd.mem_erase_iff, hs.mem_pendingBoxes]
  simp [and_comm]

end Shared

/-- `SegQueueOld::new` holds no value: its only boxes are the first segment's sentinels. -/
theorem boxAt_new {V : Type} (k a : Nat) : (SegQueueOld.new V k).sh.boxAt a = none := by
  simp only [SegQueueOld.new, Shared.boxAt, Shared.newSegment, Shared.empty]
  split_ifs <;> rfl

end Rustcurrent.SegQueue
