import Rustcurrent.SegQueue.Pending

/-!
# A dequeue that returns `None` saw an empty queue

`try_dequeue` returns `None` (line 213) after `find_item` found every slot of the segment `h` it
loaded from `head` empty, `head` was still `h` (line 187) and `h.next` was null (line 212). The
slots are read one at a time while other threads store and take items, and the answer is still
right at the state where the scan began: no item leaves a segment whose `next` is null. A dequeue
takes an item (line 195) only from a segment with a successor, which `advance_tail` (line 191)
links first when `h` is the tail; `commit` takes its item back (lines 119, 133, 147) only from a
segment `head` has passed. Items stored during the scan only make the earlier state emptier than
the reads say.

`Owned` and `Thread.Own` are the invariant behind this, `OwnInv` over every reachable state: a box
holding a value is an item, an item is in at most one slot, a box a dequeue took is in none and
keeps its value until that dequeue reads it, and each thread knows what its next exchange may
remove. `Keep` says that a step removes no item from a segment whose `next` stays null, and
`Reachable.keep` that every action from a reachable state is such a step. That a taken box keeps
its value rules out the other way `try_dequeue` could return `None`: reading a taken box that
holds none (line 197). `DeqPc.Seen` is what the scanning dequeue knows of the memory in which its
scan began; it survives every step of the run up to the return.
-/

namespace Rustcurrent.SegQueue

namespace Shared

variable {V : Type} (s : Shared V)

/-- No slot of a segment reachable from `head` holds an item. -/
def Empty : Prop := ∀ p ∈ s.held, s.boxAt p = none

instance : Decidable s.Empty :=
  decidable_of_iff (∀ p ∈ s.held, (s.boxAt p).isNone = true)
    (forall₂_congr fun _ _ => Option.isNone_iff_eq_none)

/-- The box `b` is in no slot. -/
def Nowhere (b : Nat) : Prop := ∀ a j, s.slot a j ≠ b

/-- The box `b` is in no slot but slot `i` of `tl`. -/
def AtMost (b tl i : Nat) : Prop := ∀ a j, s.slot a j = b → a = tl ∧ j = i

/-- Where the item boxes are. -/
structure Owned : Prop where
  /-- A box holding a value is an item's. -/
  some_item : ∀ p v, s.boxAt p = some v → s.IsItem p
  /-- An item is in at most one slot. -/
  unique : ∀ b, s.IsItem b → ∀ a j a' j', s.slot a j = b → s.slot a' j' = b → a = a' ∧ j = j'
  /-- A box a dequeue took is an item, in no slot. -/
  taken : ∀ p ∈ s.hist.taken, s.IsItem p ∧ s.Nowhere p
  /-- An item no dequeue took holds its value. -/
  full : ∀ p, s.IsItem p → p ∉ s.hist.taken → ∃ v, s.boxAt p = some v

/-- A step of a thread whose running enqueue has the item `m`, as the other threads' facts see
    it: a slot changes only to `m` or to a box that is no item, a dequeue takes only a box that
    was in a slot, and a box without a value gets none. -/
structure Tracks (s s' : Shared V) (m : Option Nat) : Prop where
  slot : ∀ a j, s'.slot a j ≠ s.slot a j → some (s'.slot a j) = m ∨ ¬ s'.IsItem (s'.slot a j)
  taken : ∀ p ∈ s'.hist.taken, p ∈ s.hist.taken ∨ ∃ a j, s.slot a j = p
  taken_mono : ∀ p ∈ s.hist.taken, p ∈ s'.hist.taken
  box_none : ∀ p, p < s.bound → s.boxAt p = none → s'.boxAt p = none
  bound_le : s.bound ≤ s'.bound
  item : ∀ b, s.IsItem b → s'.IsItem b

/-- A step removes no item from a slot of a segment whose `next` stays null. -/
def Keep (s s' : Shared V) : Prop :=
  ∀ a j v, s.boxAt (s.slot a j) = some v → s'.nextOf a = 0 →
    s'.slot a j = s.slot a j ∧ s'.boxAt (s.slot a j) = some v

/-- What `Own` needs of a memory step: the other threads' view, no item removed from a segment
    whose `next` stays null, and `Owned` kept. -/
structure MemStep (s s' : Shared V) (m : Option Nat) : Prop where
  tracks : Tracks s s' m
  keep : Keep s s'
  owned : s'.Owned

/-- An operation that writes neither the slots, the boxes, the allocator, the taken boxes nor
    the invocations. -/
structure Untouched (s s' : Shared V) : Prop where
  segData : ∀ a, s'.segData a = s.segData a
  boxes : s'.boxes = s.boxes
  bound : s'.bound = s.bound
  taken : s'.hist.taken = s.hist.taken
  invoked : s'.hist.invokedAt = s.hist.invokedAt

variable {s}

/-! ## Slots after a write -/

theorem slot_setSlot_of_ne (a i x : Nat) {b j : Nat} (h : ¬ (b = a ∧ j = i)) :
    (s.setSlot a i x).slot b j = s.slot b j := by
  rw [slot_eq_getD, slot_eq_getD, segData_setSlot]
  split_ifs with hb
  · subst hb
    rw [List.getElem?_set_ne fun hij => h ⟨rfl, hij.symm⟩]
  · rfl

/-- A slot `setSlot` changes holds the box written. -/
theorem slot_setSlot_changed {a i x b j : Nat} (h : (s.setSlot a i x).slot b j ≠ s.slot b j) :
    b = a ∧ j = i ∧ (s.setSlot a i x).slot b j = x := by
  by_cases hbj : b = a ∧ j = i
  · obtain ⟨rfl, rfl⟩ := hbj
    refine ⟨rfl, rfl, ?_⟩
    rw [slot_eq_getD, segData_setSlot, if_pos rfl, List.getElem?_set_self']
    by_cases hj : j < (s.segData b).length
    · simp [hj]
    · rw [slot_eq_getD, segData_setSlot, if_pos rfl, List.getElem?_set_self'] at h
      simp [hj, slot_eq_getD, List.getElem?_eq_none (Nat.le_of_not_lt hj)] at h
  · exact absurd (slot_setSlot_of_ne a i x hbj) h

theorem Untouched.slot {s' : Shared V} (hu : Untouched s s') (a j : Nat) : s'.slot a j = s.slot a j := by
  rw [slot_eq_getD, slot_eq_getD, hu.segData]

theorem Untouched.refl (s : Shared V) : Untouched s s := ⟨fun _ => rfl, rfl, rfl, rfl, rfl⟩

theorem Untouched.tick {s' : Shared V} (hu : Untouched s s') : Untouched s s'.tick :=
  ⟨hu.segData, hu.boxes, hu.bound, hu.taken, hu.invoked⟩

theorem Untouched.enqueueReturn (b : Nat) : Untouched s (s.enqueueReturn b) :=
  ⟨fun _ => rfl, rfl, rfl, rfl, rfl⟩

theorem Untouched.linkNext (a n : Nat) : Untouched s (s.linkNext a n) :=
  ⟨fun _ => segData_linkNext .., rfl, rfl, rfl, rfl⟩

theorem Untouched.setDeleted (a : Nat) : Untouched s (s.setDeleted a) :=
  ⟨fun _ => segData_setDeleted .., rfl, rfl, rfl, rfl⟩

theorem Untouched.casTail (old x : Nat) : Untouched s (s.casTail old x) := by
  unfold Shared.casTail
  split_ifs
  · exact ⟨fun _ => rfl, rfl, rfl, rfl, rfl⟩
  · exact Untouched.refl s

theorem Untouched.swingHead (hn : Nat) : Untouched s { s with head := hn } :=
  ⟨fun _ => rfl, rfl, rfl, rfl, rfl⟩

/-- Every slot holds an allocated box or null. -/
theorem Shape.slot_lt_bound (hs : s.Shape) (a j : Nat) : s.slot a j < s.bound := by
  rw [slot_eq_getD]
  cases h : (s.segData a)[j]? with
  | none => exact hs.bound_pos
  | some p => exact hs.lt_bound_of_mem_segData (List.getElem?_mem h)

/-- An address the allocator has not handed out is no item's. -/
theorem Timeline.not_item_fresh (ht : s.Timeline) (hs : s.Shape) {p : Nat} (hp : s.bound ≤ p) :
    ¬ s.IsItem p := fun h => Nat.not_lt.mpr hp (hs.box_fresh p (ht.item_box p h)).2

/-- An item's box is below the allocator's bound and not null. -/
theorem Timeline.item_lt (ht : s.Timeline) (hs : s.Shape) {b : Nat} (hb : s.IsItem b) :
    0 < b ∧ b < s.bound :=
  hs.box_fresh b (ht.item_box b hb)

/-! ## What each memory operation does to the items -/

/-- An item no dequeue took keeps its value over a step that keeps the allocated boxes. -/
theorem Owned.full_of_boxAt {s' : Shared V} (hs : s.Shape) (ho : s.Owned)
    (hbox : ∀ p, p < s.bound → s'.boxAt p = s.boxAt p) {p : Nat} (hp : s.IsItem p)
    (hnt : p ∉ s.hist.taken) : ∃ v, s'.boxAt p = some v :=
  let ⟨v, hv⟩ := ho.full p hp hnt
  ⟨v, (hbox p (hs.lt_bound_of_boxAt (by simp [hv]))).trans hv⟩

theorem MemStep.untouched {s' : Shared V} {m : Option Nat} (hu : Untouched s s') (ho : s.Owned) :
    MemStep s s' m := by
  have hbox : ∀ p, s'.boxAt p = s.boxAt p := fun p => by simp only [boxAt, hu.boxes]
  have hitem : ∀ b, s'.IsItem b ↔ s.IsItem b := fun b => by simp only [IsItem, hu.invoked]
  have hnw : ∀ b, s'.Nowhere b ↔ s.Nowhere b := fun b => by simp only [Nowhere, hu.slot]
  refine ⟨⟨fun a j h => absurd (hu.slot a j) h, fun p hp => .inl (hu.taken ▸ hp),
    fun p hp => hu.taken ▸ hp, fun p _ h => (hbox p).trans h, hu.bound.ge, fun b h => (hitem b).mpr h⟩,
    fun a j v hv _ => ⟨hu.slot a j, (hbox _).trans hv⟩, ⟨fun p v hv => ?_, fun b hb a j a' j' => ?_,
    fun p hp => ?_, fun p hp hnt => ?_⟩⟩
  · exact (hitem p).mpr (ho.some_item p v ((hbox p).symm.trans hv))
  · rw [hu.slot, hu.slot]
    exact ho.unique b ((hitem b).mp hb) a j a' j'
  · obtain ⟨h1, h2⟩ := ho.taken p (hu.taken ▸ hp)
    exact ⟨(hitem p).mpr h1, (hnw p).mpr h2⟩
  · rw [hbox]
    exact ho.full p ((hitem p).mp hp) (hu.taken ▸ hnt)

theorem MemStep.tick {s' : Shared V} {m : Option Nat} (h : MemStep s s' m) : MemStep s s'.tick m :=
  ⟨⟨h.1.1, h.1.2, h.1.3, h.1.4, h.1.5, h.1.6⟩, h.2, ⟨h.3.1, h.3.2, h.3.3, h.3.4⟩⟩

/-- `Box::into_raw(Box::new(None))`. -/
theorem MemStep.newBox (hs : s.Shape) (ho : s.Owned) (m : Option Nat) :
    MemStep s (s.newBox none) m := by
  have hbox : ∀ p, p < s.bound → (s.newBox none).boxAt p = s.boxAt p := fun p hp => by
    rw [boxAt_newBox, if_neg (Nat.ne_of_lt hp)]
  have hslot : ∀ a j, (s.newBox none).slot a j = s.slot a j := fun _ _ => rfl
  refine ⟨⟨fun a j h => absurd (hslot a j) h, fun p hp => .inl hp, fun p hp => hp,
    fun p hp h => (hbox p hp).trans h, Nat.le_succ _, fun b h => h⟩,
    fun a j v hv _ => ⟨rfl, (hbox _ (hs.slot_lt_bound a j)).trans hv⟩,
    ⟨fun p v hv => ?_, ho.unique, ho.taken, fun p hp => ho.full_of_boxAt hs hbox hp⟩⟩
  rw [boxAt_newBox] at hv
  split_ifs at hv
  exact ho.some_item p v hv

theorem slot_newSegment (a j : Nat) :
    s.newSegment.slot a j = if a = s.freshSeg then ((List.range' s.bound s.k)[j]?).getD 0 else s.slot a j := by
  simp only [slot, newSegment, store_apply]
  split_ifs <;> rfl

/-- `Box::into_raw(Box::new(Segment::new(k)))`: its sentinels are fresh, in a fresh segment. -/
theorem MemStep.newSegment (hs : s.Shape) (ht : s.Timeline) (ho : s.Owned) (m : Option Nat) :
    MemStep s s.newSegment m := by
  have hF : s.segs s.freshSeg = none := Option.not_isSome_iff_eq_none.mp fun h => by
    have := (hs.seg_fresh _ h).2
    unfold freshSeg at this
    omega
  have hbox : ∀ p, p < s.bound → s.newSegment.boxAt p = s.boxAt p := fun p hp => by
    simp only [boxAt, Shared.newSegment]
    rw [if_neg (by omega)]
  -- a slot that changes is one of the new segment's, holding a fresh sentinel or null
  have hnew : ∀ a j, s.newSegment.slot a j ≠ s.slot a j → a = s.freshSeg ∧ ¬ s.IsItem (s.newSegment.slot a j) := by
    intro a j h
    rw [slot_newSegment] at h ⊢
    split_ifs at h ⊢ with ha
    · refine ⟨ha, fun hi => ?_⟩
      have hlt := ht.item_lt hs hi
      cases hj : (List.range' s.bound s.k)[j]? with
      | none => simp [hj] at hlt
      | some q =>
        rw [hj, Option.getD_some] at hlt
        have := List.getElem?_mem hj
        rw [List.mem_range'_1] at this
        omega
    · exact absurd rfl h
  have hold : ∀ a j, s.slot a j ≠ 0 → s.newSegment.slot a j = s.slot a j := fun a j h0 => by
    by_contra hne
    apply h0
    rw [(hnew a j hne).1]
    simp [slot, hF]
  have hpos : ∀ a j v, s.boxAt (s.slot a j) = some v → s.slot a j ≠ 0 := fun a j v hv h0 => by
    have := (hs.box_fresh _ (isBox_of_boxAt hv)).1
    omega
  have hitem_ne : ∀ a j b, s.IsItem b → s.newSegment.slot a j = b → s.slot a j = b := fun a j b hb h => by
    by_contra hne
    exact (hnew a j fun he => hne (he.symm.trans h)).2 (h ▸ hb)
  refine ⟨⟨fun a j h => .inr (hnew a j h).2, fun p hp => .inl hp, fun p hp => hp,
    fun p hp h => (hbox p hp).trans h, by show s.bound ≤ s.bound + s.k + 1; omega, fun b h => h⟩,
    fun a j v hv _ => ?_, ⟨fun p v hv => ?_, fun b hb a j a' j' h h' => ?_, fun p hp => ?_,
    fun p hp => ho.full_of_boxAt hs hbox hp⟩⟩
  · have hs0 := hold a j (hpos a j v hv)
    exact ⟨hs0, (hbox _ (hs.slot_lt_bound a j)).trans hv⟩
  · simp only [boxAt, Shared.newSegment] at hv
    split_ifs at hv
    · cases hv
    · exact ho.some_item p v hv
  · exact ho.unique b hb a j a' j' (hitem_ne a j b hb h) (hitem_ne a' j' b hb h')
  · obtain ⟨hi, hn⟩ := ho.taken p hp
    exact ⟨hi, fun a j h => hn a j (hitem_ne a j p hi h)⟩

/-- Storing `x` into a slot: a slot that holds another box held it before. -/
theorem slot_setSlot_eq_of_ne {a i x b j y : Nat} (hy : (s.setSlot a i x).slot b j = y)
    (hxy : x ≠ y) : s.slot b j = y := by
  by_contra hne
  exact hxy ((slot_setSlot_changed fun he => hne (he.symm.trans hy)).2.2.symm.trans hy)

/-- Storing `x` into a slot that holds a box. -/
theorem slot_setSlot_same {a i x : Nat} (h : s.slot a i ≠ 0) : (s.setSlot a i x).slot a i = x := by
  rw [slot_eq_getD] at h ⊢
  rw [segData_setSlot, if_pos rfl]
  have hi : i < (s.segData a).length := by
    by_contra hi
    rw [List.getElem?_eq_none (Nat.le_of_not_lt hi)] at h
    exact h rfl
  simp [hi]

/-- An item that was in no slot and was not taken is stored into slot `i` of `a`, over a box
    without a value: line 81. -/
theorem MemStep.setItem (ho : s.Owned) {a i b p : Nat} (hn : s.Nowhere b) (hnt : b ∉ s.hist.taken)
    (hp : s.slot a i = p) (hpn : s.boxAt p = none) : MemStep s (s.setSlot a i b) (some b) := by
  have hch : ∀ c j, (s.setSlot a i b).slot c j ≠ s.slot c j → c = a ∧ j = i ∧ (s.setSlot a i b).slot c j = b :=
    fun c j h => slot_setSlot_changed h
  refine ⟨⟨fun c j h => .inl (congrArg some (hch c j h).2.2), fun q hq => .inl hq, fun q hq => hq,
    fun _ _ h => h, le_rfl, fun _ h => h⟩, fun c j v hv _ => ?_, ⟨ho.some_item, fun c hc x j x' j' h h' => ?_,
    fun q hq => ⟨(ho.taken q hq).1, fun x j h => ?_⟩, ho.full⟩⟩
  · by_contra hne
    obtain ⟨rfl, rfl, -⟩ := hch c j fun he => hne ⟨he, hv⟩
    rw [hp, hpn] at hv
    cases hv
  · by_cases hcb : c = b
    · subst hcb
      have hx : ∀ x j, (s.setSlot a i c).slot x j = c → x = a ∧ j = i := fun x j h =>
        (hch x j fun he => hn x j (he ▸ h)).imp_right And.left
      obtain ⟨rfl, rfl⟩ := hx x j h
      obtain ⟨rfl, rfl⟩ := hx x' j' h'
      exact ⟨rfl, rfl⟩
    · exact ho.unique c hc x j x' j' (slot_setSlot_eq_of_ne h (Ne.symm hcb))
        (slot_setSlot_eq_of_ne h' (Ne.symm hcb))
  · have hqb : b ≠ q := fun e => hnt (e ▸ hq)
    exact (ho.taken q hq).2 x j (slot_setSlot_eq_of_ne h hqb)

/-- A box that is no item is stored into slot `i` of a segment whose `next` is set: the exchanges
    of lines 119, 133, 147 and 195. -/
theorem MemStep.setSentinel (ho : s.Owned) {a i x : Nat} (hx : ¬ s.IsItem x) (hnext : s.nextOf a ≠ 0)
    (m : Option Nat) : MemStep s (s.setSlot a i x) m := by
  have hne : ∀ {c}, s.IsItem c → x ≠ c := fun hc e => hx (e ▸ hc)
  refine ⟨⟨fun c j h => .inr (by rw [(slot_setSlot_changed h).2.2]; exact hx), fun q hq => .inl hq,
    fun q hq => hq, fun _ _ h => h, le_rfl, fun _ h => h⟩, fun c j v hv hz => ?_,
    ⟨ho.some_item, fun c hc y j y' j' h h' => ho.unique c hc y j y' j' (slot_setSlot_eq_of_ne h (hne hc))
      (slot_setSlot_eq_of_ne h' (hne hc)),
    fun q hq => ⟨(ho.taken q hq).1, fun y j h => (ho.taken q hq).2 y j
      (slot_setSlot_eq_of_ne h (hne (ho.taken q hq).1))⟩, ho.full⟩⟩
  refine ⟨by_contra fun hne' => ?_, hv⟩
  obtain ⟨rfl, -, -⟩ := slot_setSlot_changed hne'
  exact hnext ((nextOf_setSlot ..).symm.trans hz)

/-- `try_dequeue`'s exchange (line 195) takes the item `p` out of slot `i` of `h`, whose `next`
    is set, and puts its new sentinel there. -/
theorem MemStep.take (hs : s.Shape) (ht : s.Timeline) (ho : s.Owned) {h i p : Nat} (hp : s.slot h i = p)
    (hpi : s.IsItem p) (hnext : s.nextOf h ≠ 0) :
    MemStep s (((s.newBox none).setSlot h i s.bound).noteTaken p) none := by
  have m1 := MemStep.newBox hs ho none
  have m2 := @MemStep.setSentinel V (s.newBox none) m1.owned h i s.bound
    (ht.not_item_fresh hs le_rfl) hnext none
  have hpb : s.bound ≠ p := Nat.ne_of_gt (ht.item_lt hs hpi).2
  have hp0 : s.slot h i ≠ 0 := hp ▸ Nat.ne_of_gt (ht.item_lt hs hpi).1
  -- `p` sat only in slot `i` of `h`, which now holds the sentinel
  have hnw : ((s.newBox none).setSlot h i s.bound).Nowhere p := fun a j he => by
    obtain ⟨rfl, rfl⟩ := ho.unique p hpi a j h i
      (@slot_setSlot_eq_of_ne V (s.newBox none) h i s.bound a j p he hpb) hp
    exact hpb ((@slot_setSlot_same V (s.newBox none) a j s.bound hp0).symm.trans he)
  refine ⟨⟨m2.tracks.slot, fun q hq => ?_, fun q hq => List.mem_append_left _ hq,
    fun q hq hn => m2.tracks.box_none q (Nat.lt_succ_of_lt hq) (m1.tracks.box_none q hq hn),
    Nat.le_succ _, fun _ h => h⟩, fun a j v hv hz =>
      m2.keep a j v (m1.keep a j v hv ((nextOf_setSlot ..).symm.trans hz)).2 hz,
    ⟨m2.owned.some_item, m2.owned.unique, fun q hq => ?_,
      fun q hq hnt => m2.owned.full q hq fun h => hnt (List.mem_append_left _ h)⟩⟩
  · rcases List.mem_append.mp hq with hq | hq
    · exact .inl hq
    · exact .inr ⟨h, i, (List.mem_singleton.mp hq) ▸ hp⟩
  · rcases List.mem_append.mp hq with hq | hq
    · exact m2.owned.taken q hq
    · rw [List.mem_singleton.mp hq]
      exact ⟨hpi, hnw⟩

/-- `ptr::replace(p, None)` on a box a dequeue took (line 197). -/
theorem MemStep.replaceBox (ho : s.Owned) {p : Nat} (hp : p ∈ s.hist.taken) (m : Option Nat) :
    MemStep s (s.replaceBox p) m := by
  have hbox : ∀ q, q ≠ p → (s.replaceBox p).boxAt q = s.boxAt q := fun q hq => by
    rw [boxAt_replaceBox, if_neg hq]
  have hslot : ∀ a j, (s.replaceBox p).slot a j = s.slot a j := fun _ _ => rfl
  refine ⟨⟨fun a j h => absurd (hslot a j) h, fun q hq => .inl hq, fun q hq => hq, fun q _ h => ?_, le_rfl,
    fun _ h => h⟩, fun a j v hv _ => ⟨rfl, (hbox _ ((ho.taken p hp).2 a j)).trans hv⟩,
    ⟨fun q v hv => ?_, ho.unique, ho.taken, fun q hq hnt => ?_⟩⟩
  · rw [boxAt_replaceBox]
    split_ifs
    · rfl
    · exact h
  · rw [boxAt_replaceBox] at hv
    split_ifs at hv
    exact ho.some_item q v hv
  · rw [hbox q fun e => hnt (e ▸ hp)]
    exact ho.full q hq hnt

/-- `enqueue(v)` is invoked: its item is boxed at a fresh address. -/
theorem MemStep.invokeEnqueue (hs : s.Shape) (ho : s.Owned) (v : V) :
    MemStep s (s.invokeEnqueue v) none := by
  have hbox : ∀ p, p ≠ s.bound → (s.invokeEnqueue v).boxAt p = s.boxAt p := fun p hp => by
    show (store s.boxes s.bound _ p).getD none = (s.boxes p).getD none
    rw [store_ne _ hp]
  have hitem : ∀ b, (s.invokeEnqueue v).IsItem b ↔ b = s.bound ∨ s.IsItem b := fun b => by
    show (store s.hist.invokedAt s.bound (some s.hist.clock) b).isSome = true ↔ _
    by_cases hb : b = s.bound
    · simp [hb]
    · simp [store_ne _ hb, hb, IsItem]
  have hslot : ∀ a j, (s.invokeEnqueue v).slot a j = s.slot a j := fun _ _ => rfl
  have hold : ∀ b a j, s.slot a j = b → b ≠ s.bound := fun b a j h e =>
    Nat.lt_irrefl _ (e ▸ h ▸ hs.slot_lt_bound a j)
  refine ⟨⟨fun a j h => absurd (hslot a j) h, fun q hq => .inl hq, fun q hq => hq,
    fun p hp h => (hbox p (Nat.ne_of_lt hp)).trans h, Nat.le_succ _, fun b h => (hitem b).mpr (.inr h)⟩,
    fun a j w hw _ => ⟨rfl, (hbox _ (Nat.ne_of_lt (hs.slot_lt_bound a j))).trans hw⟩, ⟨fun p w hw => ?_,
    fun b hb a j a' j' h h' => ho.unique b (((hitem b).mp hb).resolve_left (hold b a j h)) a j a' j' h h',
    fun q hq => ⟨(hitem q).mpr (.inr (ho.taken q hq).1), (ho.taken q hq).2⟩, fun q hq hnt => ?_⟩⟩
  swap
  · by_cases hq' : q = s.bound
    · subst hq'
      exact ⟨v, by simp [boxAt, Shared.invokeEnqueue, Shared.newBox, store_same]⟩
    · rw [hbox q hq']
      exact ho.full q (((hitem q).mp hq).resolve_left hq') hnt
  by_cases hp : p = s.bound
  · exact (hitem p).mpr (.inl hp)
  · exact (hitem p).mpr (.inr (ho.some_item p w ((hbox p hp).symm.trans hw)))

end Shared

open Shared

variable {V : Type}

/-! ## What each thread knows -/

/-- The segment `advance_tail` was called on. -/
def TailPc.old : TailPc → Nat
  | .loadTail old | .loadNext old | .recheck old _ | .link old _ | .swingNew old _ | .swing old _ => old

/-- What an enqueue of the item `b` knows of where `b` is, and of the segment it may take `b`
    back from. -/
def EnqPc.Own (s : Shared V) (b : Nat) : EnqPc → Prop
  | .loadTail | .checkTail _ | .scan .. | .advanceTail _ => s.Nowhere b ∧ b ∉ s.hist.taken
  | .scanRead _ _ p _ => s.Nowhere b ∧ b ∉ s.hist.taken ∧ p < s.bound
  | .recheck _ _ p | .cas _ _ p => s.Nowhere b ∧ b ∉ s.hist.taken ∧ s.boxAt p = none ∧ p < s.bound
  | .commitLoad tl i | .commitHead tl i | .commitDeleted2 tl i _ => s.AtMost b tl i
  | .commitDeleted tl i h _ => s.AtMost b tl i ∧ s.Below h
  | .commitSelf tl i h _ => s.AtMost b tl i ∧ h = tl ∧ s.Below h
  | .commitUndo tl i _ => s.AtMost b tl i ∧ s.nextOf tl ≠ 0

/-- What a dequeue knows of the item it found, and of the segment it would take it from. -/
def DeqPc.Own (s : Shared V) : DeqPc → Prop
  | .loadTail _ found => ∀ i p, found = some (i, p) → s.IsItem p
  | .checkHead2 h tl found => h ≤ tl ∧ ∀ i p, found = some (i, p) → s.IsItem p
  | .advanceTail h _ p pc => pc.old = h ∧ s.IsItem p
  | .cas h _ p => s.nextOf h ≠ 0 ∧ s.IsItem p
  | .take p => p ∈ s.hist.taken ∧ ∃ v, s.boxAt p = some v
  | _ => True

/-- The box a dequeue took and is about to read (line 197). -/
def Thread.taking : Thread V → Option Nat
  | .dequeue (.take p) => some p
  | _ => none

/-- What a thread knows of the items. -/
def Thread.Own (s : Shared V) : Thread V → Prop
  | .enqueue b pc => EnqPc.Own s b pc
  | .dequeue pc => DeqPc.Own s pc
  | _ => True

section Mono

variable {s s' : Shared V} {m : Option Nat} (tr : Tracks s s' m)
include tr

/-- A slot that holds the item `b` after the step held it before, unless `b` is the item of the
    stepping enqueue. -/
theorem Shared.Tracks.slot_eq {b : Nat} (hb : s.IsItem b) (hbm : some b ≠ m) {a j : Nat} (he : s'.slot a j = b) :
    s.slot a j = b := by
  by_contra hc
  rcases tr.slot a j fun h => hc (h.symm.trans he) with e | e
  · exact hbm (he ▸ e)
  · exact e (he ▸ tr.item b hb)

theorem Shared.Nowhere.mono {b : Nat} (hb : s.IsItem b) (hbm : some b ≠ m) (h : s.Nowhere b) :
    s'.Nowhere b := fun a j he => h a j (tr.slot_eq hb hbm he)

theorem Shared.AtMost.mono {b tl i : Nat} (hb : s.IsItem b) (hbm : some b ≠ m) (h : s.AtMost b tl i) :
    s'.AtMost b tl i := fun a j he => h a j (tr.slot_eq hb hbm he)

theorem not_taken_mono {b : Nat} (hn : s.Nowhere b) (h : b ∉ s.hist.taken) : b ∉ s'.hist.taken :=
  fun hb => (tr.taken b hb).elim h fun ⟨a, j, e⟩ => hn a j e

/-- A thread's facts survive a step of another thread, whose running enqueue, if any, has the
    item `m`. -/
theorem Thread.Own.mono (g : Grows s s') (hs : s.Shape) {th : Thread V} (h : th.Own s) (hok : th.Ok s)
    (hth : ∀ b, th.item = some b → some b ≠ m)
    (hbox : ∀ p, th.taking = some p → s'.boxAt p = s.boxAt p) : th.Own s' := by
  have hnz : ∀ {a}, s.nextOf a ≠ 0 → s'.nextOf a ≠ 0 := fun h0 => g.next_eq _ h0 ▸ h0
  cases th with
  | enqueue b pc =>
    have hb : s.IsItem b := hok.1
    have hbm := hth b rfl
    have hn := Nowhere.mono tr hb hbm
    have ha : ∀ {tl i}, s.AtMost b tl i → s'.AtMost b tl i := AtMost.mono tr hb hbm
    cases pc with
    | loadTail | checkTail | scan | advanceTail => exact ⟨hn h.1, not_taken_mono tr h.1 h.2⟩
    | scanRead => exact ⟨hn h.1, not_taken_mono tr h.1 h.2.1, Nat.lt_of_lt_of_le h.2.2 tr.bound_le⟩
    | recheck | cas =>
      exact ⟨hn h.1, not_taken_mono tr h.1 h.2.1, tr.box_none _ h.2.2.2 h.2.2.1,
        Nat.lt_of_lt_of_le h.2.2.2 tr.bound_le⟩
    | commitLoad | commitHead | commitDeleted2 => exact ha h
    | commitDeleted => exact ⟨ha h.1, Below.mono hs g h.2⟩
    | commitSelf => exact ⟨ha h.1, h.2.1, Below.mono hs g h.2.2⟩
    | commitUndo => exact ⟨ha h.1, hnz h.2⟩
  | dequeue pc =>
    cases pc with
    | loadTail => exact fun i p hf => tr.item p (h i p hf)
    | checkHead2 => exact ⟨h.1, fun i p hf => tr.item p (h.2 i p hf)⟩
    | advanceTail => exact ⟨h.1, tr.item _ h.2⟩
    | cas => exact ⟨hnz h.1, tr.item _ h.2⟩
    | take p => exact ⟨tr.taken_mono _ h.1, hbox p rfl ▸ h.2⟩
    | _ => trivial
  | _ => trivial

end Mono

theorem Thread.eq_of_taking {th : Thread V} {p : Nat} (h : th.taking = some p) : th = .dequeue (.take p) := by
  cases th with
  | dequeue pc => cases pc <;> cases h; rfl
  | _ => cases h

/-- A dequeue about to read a box it took took it, and the box still holds a value. -/
theorem Thread.Own.taking {s : Shared V} {th : Thread V} {p : Nat} (h : th.Own s) (hp : th.taking = some p) :
    p ∈ s.hist.taken ∧ ∃ v, s.boxAt p = some v := by
  obtain rfl := Thread.eq_of_taking hp
  exact h

/-! ## The stepping thread -/

/-- What a step of a thread whose running enqueue has the item `m` does, as `Own` sees it: the
    memory `s` becomes `s'` and the thread becomes `th'`. -/
structure OwnStep (s s' : Shared V) (m : Option Nat) (th' : Thread V) : Prop where
  mem : MemStep s s' m
  own : th'.Own s'

theorem EnqPc.scanNext_own {s : Shared V} {b tl : Nat} (h : s.Nowhere b ∧ b ∉ s.hist.taken) :
    ∀ l, EnqPc.Own s b (EnqPc.scanNext tl l)
  | [] => h
  | _ :: _ => h

theorem DeqPc.scanNext_own {s : Shared V} {x : Nat} : ∀ l, DeqPc.Own s (DeqPc.scanNext x l)
  | [] => fun _ _ h => by cases h
  | _ :: _ => trivial

theorem TailPc.old_advanceTail {s : Shared V} {pc pc' : TailPc} (h : (s.advanceTail pc).2 = some pc') :
    pc'.old = pc.old := by
  cases pc <;> simp only [Shared.advanceTail] at h <;> (try split_ifs at h) <;> cases h <;> rfl

theorem Shared.nextOf_casTail {s : Shared V} (old x a : Nat) : (s.casTail old x).nextOf a = s.nextOf a := by
  unfold Shared.casTail
  split_ifs <;> rfl

/-- A segment that has been marked deleted is behind `head`, so its `next` is set. -/
theorem Shared.Shape.next_of_deleted {s : Shared V} (hs : s.Shape) {a : Nat} (ha : a ∈ s.hist.chain)
    (hd : s.deletedOf a = true) : s.nextOf a ≠ 0 :=
  (hs.linked.next_le ha hs.head_mem (Nat.lt_of_not_le fun hle => by
    rw [hs.undeleted a ha hle] at hd; cases hd)).1

/-- When `advance_tail` returns, the segment it was called on has a successor. -/
theorem TailPc.next_advanceTail {s : Shared V} (hs : s.Shape) {pc : TailPc} (h : TailPc.Ok s pc)
    (hle : pc.old ≤ s.tail) (hnone : (s.advanceTail pc).2 = none) : (s.advanceTail pc).1.nextOf pc.old ≠ 0 := by
  have hbelow : ∀ {old}, old ∈ s.hist.chain → old ≤ s.tail → old ≠ s.tail → s.nextOf old ≠ 0 :=
    fun hm hle hne => (hs.linked.next_le hm hs.tail_mem (lt_of_le_of_ne hle hne)).1
  cases pc with
  | loadTail old =>
    simp only [Shared.advanceTail] at hnone ⊢
    split_ifs at hnone with ht
    exact hbelow h hle (Ne.symm ht)
  | loadNext => cases hnone
  | recheck old next =>
    simp only [Shared.advanceTail] at hnone ⊢
    split_ifs at hnone ⊢ with ht
    exact hbelow h.1 hle ht
  | link old new =>
    simp only [Shared.advanceTail] at hnone ⊢
    split_ifs at hnone ⊢ with hz
    exact hz
  | swingNew old new | swing old new =>
    simp only [Shared.advanceTail, Shared.nextOf_casTail]
    exact h.2.2 ▸ h.2.1

section Step

variable {s : Shared V} (hs : s.Shape) (ht : s.Timeline) (ho : s.Owned)
include hs ht ho

/-- One access of `advance_tail` writes no slot but those of the segment it allocates. -/
theorem advanceTail_mem (pc : TailPc) (m : Option Nat) : MemStep s (s.advanceTail pc).1 m := by
  have hrefl : MemStep s s m := .untouched (.refl s) ho
  cases pc with
  | loadTail | loadNext => exact hrefl
  | recheck =>
    simp only [Shared.advanceTail]
    split_ifs
    · exact .newSegment hs ht ho m
    · exact hrefl
    · exact hrefl
  | link old new =>
    simp only [Shared.advanceTail]
    split_ifs
    · exact .untouched (.linkNext old new) ho
    · exact hrefl
  | swingNew old new | swing old new => exact .untouched (.casTail old new) ho

omit hs ht ho in
/-- After the exchange of line 81 the item is in the slot it was stored into only. -/
theorem Shared.atMost_setSlot {b a i : Nat} (hn : s.Nowhere b) : (s.setSlot a i b).AtMost b a i :=
  fun c j he => by_contra fun hne => hn c j ((slot_setSlot_of_ne a i b hne).symm.trans he)

/-- One access inside `enqueue` of `b`. -/
theorem enqStep_own {b : Nat} {c : Choice} {pc : EnqPc} (hok : (Thread.enqueue b pc : Thread V).Ok s)
    (h : EnqPc.Own s b pc) : OwnStep s (s.enqStep b c pc).1 (some b) (s.enqStep b c pc).2 := by
  obtain ⟨hb, -, hpc⟩ := hok
  have hrefl : MemStep s s (some b) := .untouched (.refl s) ho
  have hret : OwnStep s (s.enqueueReturn b) (some b) .enqueued := ⟨.untouched (.enqueueReturn b) ho, trivial⟩
  cases pc with
  | loadTail => exact ⟨hrefl, h⟩
  | checkTail =>
    simp only [Shared.enqStep]
    split_ifs
    · exact ⟨hrefl, EnqPc.scanNext_own h _⟩
    · exact ⟨hrefl, h⟩
  | scan tl i => exact ⟨hrefl, h.1, h.2, hs.slot_lt_bound tl i⟩
  | scanRead =>
    simp only [Shared.enqStep]
    split
    · exact ⟨hrefl, EnqPc.scanNext_own ⟨h.1, h.2.1⟩ _⟩
    · next hpn => exact ⟨hrefl, h.1, h.2.1, hpn, h.2.2⟩
  | recheck =>
    simp only [Shared.enqStep]
    split_ifs
    · exact ⟨hrefl, h⟩
    · exact ⟨hrefl, h.1, h.2.1⟩
  | cas =>
    simp only [Shared.enqStep]
    split_ifs with hc
    · exact ⟨.setItem ho h.1 h.2.1 hc.1 h.2.2.1, atMost_setSlot h.1⟩
    · exact ⟨hrefl, h.1, h.2.1⟩
  | commitLoad =>
    simp only [Shared.enqStep]
    split_ifs
    · exact ⟨hrefl, h⟩
    · exact hret
  | commitHead => exact ⟨.newBox hs ho _, h, hs.head_mem, le_rfl⟩
  | commitDeleted tl =>
    simp only [Shared.enqStep]
    split_ifs with hd hx
    · exact ⟨hrefl, h.1, hs.next_of_deleted hpc.1.1 hd⟩
    · exact ⟨hrefl, h.1, hx, h.2⟩
    · exact ⟨hrefl, h.1⟩
  | commitSelf tl i x =>
    simp only [Shared.enqStep]
    split_ifs with hx
    · exact hret
    · obtain ⟨ha, rfl, hmem, hle⟩ := h
      exact ⟨hrefl, ha, (hs.linked.next_le hmem hs.head_mem (lt_of_le_of_ne hle (Ne.symm hx))).1⟩
  | commitDeleted2 =>
    simp only [Shared.enqStep]
    split_ifs with hd
    · exact ⟨hrefl, h, hs.next_of_deleted hpc.1.1 hd⟩
    · exact hret
  | commitUndo tl i nn =>
    simp only [Shared.enqStep]
    split_ifs with hslot
    · have hnn : ¬ s.IsItem nn := fun hi => by simp [IsItem, hpc.2.2] at hi
      have hnb : nn ≠ b := fun e => hnn (e ▸ hb)
      refine ⟨.setSentinel ho hnn h.2 _, fun a j he => ?_, fun hq => (ho.taken b hq).2 tl i hslot⟩
      obtain ⟨rfl, rfl⟩ := h.1 a j (slot_setSlot_eq_of_ne he hnb)
      exact hnb ((slot_setSlot_same (hslot ▸ (ht.item_lt hs hb).1.ne')).symm.trans he)
    · exact hret
  | advanceTail pc =>
    have hm := advanceTail_mem hs ht ho pc
    have hown : (s.advanceTail pc).1.Nowhere b ∧ b ∉ (s.advanceTail pc).1.hist.taken :=
      ⟨Nowhere.mono (hm none).tracks hb (by simp) h.1, not_taken_mono (hm none).tracks h.1 h.2⟩
    simp only [Shared.enqStep]
    split
    · next heq => rw [heq] at hm hown; exact ⟨hm _, hown⟩
    · next heq => rw [heq] at hm hown; exact ⟨hm _, hown⟩

/-- One access inside `dequeue`. -/
theorem deqStep_own {c : Choice} {pc : DeqPc} (hok : DeqPc.Ok s pc) (h : DeqPc.Own s pc) :
    OwnStep s (s.deqStep c pc).1 none (s.deqStep c pc).2 := by
  have hrefl : MemStep s s none := .untouched (.refl s) ho
  cases pc with
  | checkHead =>
    simp only [Shared.deqStep]
    split_ifs
    · exact ⟨hrefl, DeqPc.scanNext_own _⟩
    · exact ⟨hrefl, trivial⟩
  | scanRead x i p =>
    simp only [Shared.deqStep]
    split
    · next v hv => exact ⟨hrefl, fun _ _ he => by cases he; exact ho.some_item p v hv⟩
    · exact ⟨hrefl, DeqPc.scanNext_own _⟩
  | loadTail x found =>
    rcases found with _ | ⟨i, p⟩
    · exact ⟨hrefl, hok.2.trans hs.head_le_tail, h⟩
    · exact ⟨hrefl, hok.1.2.trans hs.head_le_tail, h⟩
  | checkHead2 x tl found =>
    rcases found with _ | ⟨i, p⟩
    · simp only [Shared.deqStep]
      split_ifs <;> exact ⟨hrefl, trivial⟩
    · simp only [Shared.deqStep]
      split_ifs with hx htl
      · exact ⟨hrefl, htl.symm, h.2 i p rfl⟩
      · exact ⟨hrefl, (hs.linked.next_le hok.1.1 hok.2.1 (lt_of_le_of_ne h.1 htl)).1, h.2 i p rfl⟩
      · exact ⟨hrefl, trivial⟩
  | advanceTail x i p pc =>
    have hm := advanceTail_mem hs ht ho pc none
    have hp := hm.tracks.item p h.2
    have hnext := TailPc.next_advanceTail hs hok.2.2 (h.1 ▸ hok.1.2.trans hs.head_le_tail)
    simp only [Shared.deqStep]
    split
    · next pc' heq =>
      rw [heq] at hm hp
      exact ⟨hm, (TailPc.old_advanceTail (congrArg Prod.snd heq)).trans h.1, hp⟩
    · next heq =>
      rw [heq] at hm hp hnext
      exact ⟨hm, h.1 ▸ hnext rfl, hp⟩
  | cas x i p =>
    simp only [Shared.deqStep]
    split_ifs with hp
    · have hnt : p ∉ s.hist.taken := fun hq => (ho.taken p hq).2 x i hp
      exact ⟨.take hs ht ho hp h.2 h.1, List.mem_append_right _ (List.mem_singleton_self p),
        ho.full_of_boxAt hs (fun q hq => by rw [boxAt_noteTaken, boxAt_setSlot, boxAt_newBox,
          if_neg hq.ne]) h.2 hnt⟩
    · exact ⟨.newBox hs ho none, trivial⟩
  | take p => exact ⟨.replaceBox ho h.1 none, trivial⟩
  | headSwingTail x hn tl tn => exact ⟨.untouched (.casTail tl tn) ho, trivial⟩
  | headSwing x hn =>
    simp only [Shared.deqStep]
    split_ifs
    · exact ⟨.untouched (.swingHead hn) ho, trivial⟩
    · exact ⟨hrefl, trivial⟩
  | headDelete x => exact ⟨.untouched (.setDeleted x) ho, trivial⟩
  | loadNext | headLoad | headRecheck | headCheckTail =>
    simp only [Shared.deqStep]
    split_ifs <;> exact ⟨hrefl, trivial⟩
  | loadHead | scan | headLoadTail | headTailNext | headNext => exact ⟨hrefl, trivial⟩

end Step

/-! ## Which boxes a step empties -/

section Frame

variable {s : Shared V}

theorem Shared.boxAt_casTail (old x q : Nat) : (s.casTail old x).boxAt q = s.boxAt q := by
  unfold Shared.casTail
  split_ifs <;> rfl

/-- `advance_tail` changes no allocated box. -/
theorem Shared.boxAt_advanceTail (pc : TailPc) {q : Nat} (hq : q < s.bound) :
    (s.advanceTail pc).1.boxAt q = s.boxAt q := by
  cases pc with
  | loadTail | loadNext => rfl
  | recheck =>
    simp only [Shared.advanceTail]
    split_ifs
    · simp only [boxAt, Shared.newSegment]
      rw [if_neg (by omega)]
    all_goals rfl
  | link => simp only [Shared.advanceTail]; split_ifs <;> rfl
  | swingNew old new | swing old new => exact boxAt_casTail old new q

/-- `enqueue` changes no allocated box. -/
theorem Shared.boxAt_enqStep {b : Nat} {c : Choice} (pc : EnqPc) {q : Nat} (hq : q < s.bound) :
    (s.enqStep b c pc).1.boxAt q = s.boxAt q := by
  cases pc with
  | commitHead => exact (boxAt_newBox ..).trans (if_neg hq.ne)
  | advanceTail pc =>
    simp only [Shared.enqStep]
    split <;> next heq => rw [← boxAt_advanceTail pc hq, heq]
  | scanRead => simp only [Shared.enqStep]; split <;> rfl
  | loadTail | scan => rfl
  | checkTail | recheck | cas | commitLoad | commitDeleted | commitSelf | commitDeleted2 | commitUndo =>
    simp only [Shared.enqStep]; split_ifs <;> rfl

/-- `dequeue` empties an allocated box only when it reads the box it took (line 197). -/
theorem Shared.boxAt_deqStep {c : Choice} (pc : DeqPc) {q : Nat} (hq : q < s.bound) (hpc : pc ≠ .take q) :
    (s.deqStep c pc).1.boxAt q = s.boxAt q := by
  have hnew : (s.newBox none).boxAt q = s.boxAt q := (boxAt_newBox ..).trans (if_neg hq.ne)
  cases pc with
  | cas => simp only [Shared.deqStep]; split_ifs <;> simp only [boxAt_noteTaken, boxAt_setSlot, hnew]
  | take p => exact (boxAt_replaceBox ..).trans (if_neg fun e => hpc (congrArg _ e.symm))
  | advanceTail x i p pc =>
    simp only [Shared.deqStep]
    split <;> next heq => rw [← boxAt_advanceTail pc hq, heq]
  | headSwingTail x hn tl tn => exact boxAt_casTail tl tn q
  | checkHead2 x tl found =>
    rcases found with _ | ⟨i, p⟩ <;> simp only [Shared.deqStep] <;> split_ifs <;> rfl
  | scanRead => simp only [Shared.deqStep]; split <;> rfl
  | loadHead | scan | loadTail | headLoadTail | headTailNext | headNext | headDelete => rfl
  | checkHead | loadNext | headLoad | headRecheck | headCheckTail | headSwing =>
    simp only [Shared.deqStep]; split_ifs <;> rfl

theorem DeqPc.scanNext_ne_take (x : Nat) (l : List Nat) (p : Nat) : DeqPc.scanNext x l ≠ .take p := by
  cases l <;> simp [DeqPc.scanNext]

/-- Only a successful exchange (line 195) brings a dequeue to read the box it took. -/
theorem Shared.deqStep_eq_take {c : Choice} {pc : DeqPc} {p : Nat}
    (h : (s.deqStep c pc).2 = .dequeue (.take p)) : ∃ x i, pc = .cas x i p ∧ s.slot x i = p := by
  cases pc with
  | cas x i =>
    simp only [Shared.deqStep] at h
    split_ifs at h with hp
    · cases h
      exact ⟨x, i, rfl, hp⟩
    · cases h
  | checkHead2 x tl found =>
    rcases found with _ | ⟨i, p⟩ <;> simp only [Shared.deqStep] at h <;> split_ifs at h <;> cases h
  | checkHead | scanRead =>
    simp only [Shared.deqStep] at h
    split at h
    all_goals first | cases h | exact absurd (Thread.dequeue.inj h) (DeqPc.scanNext_ne_take _ _ _)
  | _ => simp only [Shared.deqStep] at h; (repeat' split at h) <;> cases h

/-- What a dequeue becomes after one access: it is still in its call, or it returns the value of
    the box it took (line 197), or it returns `None` after finding `next` null (line 213). -/
theorem Shared.deqStep_thread (c : Choice) (pc : DeqPc) :
    (∃ pc', (s.deqStep c pc).2 = .dequeue pc') ∨
      (∃ p, pc = .take p ∧ (s.deqStep c pc).2 = .dequeued (s.boxAt p)) ∨
      ∃ h, pc = .loadNext h ∧ s.nextOf h = 0 ∧ (s.deqStep c pc).2 = .dequeued none := by
  cases pc with
  | take p => exact .inr (.inl ⟨p, rfl, rfl⟩)
  | loadNext h =>
    simp only [Shared.deqStep]
    split_ifs with h0
    · exact .inr (.inr ⟨h, rfl, h0, rfl⟩)
    · exact .inl ⟨_, rfl⟩
  | _ => refine .inl ?_; simp only [Shared.deqStep]; (repeat' split) <;> exact ⟨_, rfl⟩

theorem Shared.enqStep_ne_take {b : Nat} {c : Choice} (pc : EnqPc) (p : Nat) :
    (s.enqStep b c pc).2 ≠ .dequeue (.take p) := by
  cases pc <;> simp only [Shared.enqStep] <;> (repeat' split) <;> simp

end Frame

/-! ## The invariant over runs -/

/-- Where the items are, what each thread knows of them, and that no two dequeues read one taken
    box. -/
structure OwnInv (s : QState V) : Prop where
  owned : s.sh.Owned
  own : ∀ t, (s.threads t).Own s.sh
  took : ∀ t u p, (s.threads t).taking = some p → (s.threads u).taking = some p → t = u

/-- A step of thread `t`: what `Own` sees of it, that it empties no allocated box but the one it
    reads after taking it, and that a box it takes is in a slot. -/
theorem QState.step_own {s : QState V} {t : Nat} {c : Choice} {r : Shared V × Thread V}
    (hi : Inv s) (ho : OwnInv s) (h : s.step t c = some r) :
    OwnStep s.sh r.1 (s.threads t).item r.2 ∧
      (∀ q, q < s.sh.bound → (s.threads t).taking ≠ some q → r.1.boxAt q = s.sh.boxAt q) ∧
      ∀ p, r.2.taking = some p → ∃ x i, s.sh.slot x i = p := by
  have hok := hi.ok t
  have hown := ho.own t
  unfold QState.step at h
  split at h
  · next b pc heq =>
    cases h
    rw [heq] at hok hown ⊢
    exact ⟨enqStep_own hi.shape hi.timeline ho.owned hok hown, fun q hq _ => boxAt_enqStep pc hq,
      fun p hp => absurd (Thread.eq_of_taking hp) (enqStep_ne_take pc p)⟩
  · next pc heq =>
    cases h
    rw [heq] at hok hown ⊢
    refine ⟨deqStep_own hi.shape hi.timeline ho.owned hok hown,
      fun q hq hne => boxAt_deqStep pc hq fun e => hne (by rw [e]; rfl), fun p hp => ?_⟩
    obtain ⟨x, i, -, hx⟩ := deqStep_eq_take (Thread.eq_of_taking hp)
    exact ⟨x, i, hx⟩
  · cases h

/-- Every action keeps `OwnInv`, and removes no item from a segment whose `next` stays null. -/
theorem OwnInv.exec {s s' : QState V} {a : Action V} (hi : Inv s) (ho : OwnInv s)
    (h : s.exec a = some s') : OwnInv s' ∧ Keep s.sh s'.sh := by
  have g := (hi.exec h).2
  -- the box a dequeue took is allocated
  have htb : ∀ u p, (s.threads u).taking = some p → p < s.sh.bound := fun u p hp =>
    (hi.timeline.item_lt hi.shape (ho.owned.taken p ((ho.own u).taking hp).1).1).2
  cases a with
  | enqueue t v =>
    simp only [QState.exec] at h
    split_ifs at h
    cases h
    have hm := (MemStep.invokeEnqueue hi.shape ho.owned v).tick
    refine ⟨⟨hm.owned, fun u => ?_, distinct_store ho.took fun _ h => by cases h⟩, hm.keep⟩
    dsimp only
    by_cases hu : u = t
    · rw [hu, store_same]
      exact ⟨fun a j he => (hi.shape.slot_lt_bound a j).ne he,
        fun hq => Nat.lt_irrefl _ (hi.timeline.item_lt hi.shape (ho.owned.taken _ hq).1).2⟩
    · rw [store_ne _ hu]
      exact (ho.own u).mono hm.tracks g hi.shape (hi.ok u) (fun _ _ h => by cases h)
        fun p hp => (boxAt_newBox ..).trans (if_neg (htb u p hp).ne)
  | dequeue t =>
    simp only [QState.exec] at h
    split_ifs at h
    cases h
    have hm : MemStep s.sh s.sh.tick none := (MemStep.untouched (.refl _) ho.owned).tick
    refine ⟨⟨hm.owned, fun u => ?_, distinct_store ho.took fun _ h => by cases h⟩, hm.keep⟩
    dsimp only
    by_cases hu : u = t
    · rw [hu, store_same]; trivial
    · rw [store_ne _ hu]; exact ho.own u
  | step t c =>
    simp only [QState.exec] at h
    cases hr : s.step t c with
    | none => simp only [hr] at h; cases h
    | some r =>
      obtain ⟨sh, th⟩ := r
      simp only [hr, Option.some.injEq] at h
      subst h
      obtain ⟨os, hbox, htake⟩ := QState.step_own hi ho hr
      have hm := os.mem.tick
      refine ⟨⟨hm.owned, fun u => ?_, distinct_store ho.took fun p hp u _ hup => ?_⟩, hm.keep⟩
      · dsimp only
        by_cases hu : u = t
        · rw [hu, store_same]; exact os.own
        · rw [store_ne _ hu]
          exact (ho.own u).mono hm.tracks g hi.shape (hi.ok u)
            (fun b hb hbt => hu (hi.distinct u t b hb hbt.symm))
            fun p hp => hbox p (htb u p hp) fun htp => hu (ho.took u t p hp htp)
      · -- a box taken now was in a slot, so no dequeue had taken it
        obtain ⟨x, i, hx⟩ := htake p hp
        exact (ho.owned.taken p ((ho.own u).taking hup).1).2 x i hx

/-- `SegQueueOld::new(k)` holds no item and has no thread in a call. -/
theorem OwnInv.new (k : Nat) : OwnInv (SegQueueOld.new V k) := by
  have hitem : ∀ b, ¬ (SegQueueOld.new V k).sh.IsItem b := fun _ h => by cases h
  exact ⟨⟨fun p v h => absurd (boxAt_new k p ▸ h) (by simp), fun b h => absurd h (hitem b),
    fun _ h => (nomatch h), fun b h => absurd h (hitem b)⟩, fun _ => trivial, fun _ _ _ h => (nomatch h)⟩

/-- Every reachable state satisfies `OwnInv`. -/
theorem Reachable.own {k : Nat} {s : QState V} (h : Reachable k s) : OwnInv s :=
  h.induction (OwnInv.new k) fun _ _ _ hr ho ha => (ho.exec hr.inv ha).1

/-- No action from a reachable state removes an item from a slot of a segment whose `next` stays
    null: `try_dequeue`'s exchange (line 195) takes only from a segment with a successor, and
    `commit` takes its item back (lines 119, 133, 147) only from a segment `head` has passed. -/
theorem Reachable.keep {k : Nat} {s s' : QState V} (h : Reachable k s) {a : Action V}
    (ha : s.exec a = some s') : Keep s.sh s'.sh :=
  (h.own.exec h.inv ha).2

/-! ## The scan of a dequeue that returns `None`

`W` is the memory in which the dequeue found `head` to be `h` (line 178) before it scanned the
slots of `h`; `σ` is the current memory. While `h.next` stays null, every item `W` held in a slot
of `h` is still there, and every slot read so far held no item in `W`. -/

namespace Shared

variable (W σ : Shared V) (h : Nat)

/-- While `h.next` stays null, the items in the slots of `h` in `W` are still there in `σ`. -/
def Persists : Prop :=
  σ.nextOf h = 0 → W.nextOf h = 0 ∧
    ∀ j v, W.boxAt (W.slot h j) = some v → σ.slot h j = W.slot h j ∧ σ.boxAt (W.slot h j) = some v

/-- Slot `j` of `h` held no item in `W`, while `h.next` stays null. -/
def Quiet (j : Nat) : Prop := σ.nextOf h = 0 → W.boxAt (W.slot h j) = none

variable {W σ h}

/-- When `head` is `h` and `h.next` is null, the slots of `h` are all the queue holds. -/
theorem Shape.empty_of_last (hs : W.Shape) (hh : W.head = h) (hn : W.nextOf h = 0)
    (hq : ∀ j < W.k, W.boxAt (W.slot h j) = none) : W.Empty := fun p hp => by
  obtain ⟨x, hx, hle, hpx⟩ := hs.mem_held.mp hp
  obtain rfl : x = h :=
    le_antisymm (hs.linked.le_of_next_eq_zero (hh ▸ hs.head_mem) hn hx) (hh ▸ hle)
  exact @Shape.forall_segData V W hs x hx (fun a => W.boxAt a = none) hq p hpx

end Shared

/-- What a dequeue on its way to returning `None` knows of the memory `W` from the memory `σ`. -/
def DeqPc.Seen (W σ : Shared V) : DeqPc → Prop
  | .scan h i rest => W.head = h ∧ W.Persists σ h ∧ ∀ j < W.k, j ∉ i :: rest → W.Quiet σ h j
  | .scanRead h i p rest =>
    W.head = h ∧ W.Persists σ h ∧ (∀ j < W.k, j ∉ i :: rest → W.Quiet σ h j) ∧
      (σ.nextOf h = 0 → ∀ v, W.boxAt (W.slot h i) = some v → W.slot h i = p)
  | .loadTail h none | .checkHead2 h _ none | .loadNext h =>
    W.head = h ∧ W.Persists σ h ∧ ∀ j < W.k, W.Quiet σ h j
  | _ => True

section Seen

variable {W σ σ' : Shared V}

/-- Another thread's step, which removes no item from a segment whose `next` stays null, keeps
    what the dequeue knows. -/
theorem DeqPc.Seen.mono (g : Grows σ σ') (hk : Keep σ σ') {pc : DeqPc} (h : DeqPc.Seen W σ pc) :
    DeqPc.Seen W σ' pc := by
  have hz : ∀ {a}, σ'.nextOf a = 0 → σ.nextOf a = 0 := fun {a} h0 =>
    by_contra fun hne => hne ((g.next_eq a hne).symm.trans h0)
  have hp : ∀ {h}, W.Persists σ h → W.Persists σ' h := fun hp h0 => by
    obtain ⟨hW, hslot⟩ := hp (hz h0)
    refine ⟨hW, fun j v hv => ?_⟩
    obtain ⟨he, hb⟩ := hslot j v hv
    obtain ⟨he', hb'⟩ := hk _ j v (he ▸ hb) h0
    exact ⟨he'.trans he, he ▸ hb'⟩
  have hq : ∀ {h j}, W.Quiet σ h j → W.Quiet σ' h j := fun hq h0 => hq (hz h0)
  cases pc with
  | scan => exact ⟨h.1, hp h.2.1, fun j hj hn => hq (h.2.2 j hj hn)⟩
  | scanRead => exact ⟨h.1, hp h.2.1, fun j hj hn => hq (h.2.2.1 j hj hn), fun h0 => h.2.2.2 (hz h0)⟩
  | loadTail _ found | checkHead2 _ _ found =>
    cases found
    · exact ⟨h.1, hp h.2.1, fun j hj => hq (h.2.2 j hj)⟩
    · trivial
  | loadNext => exact ⟨h.1, hp h.2.1, fun j hj => hq (h.2.2 j hj)⟩
  | _ => trivial

theorem DeqPc.Seen.scanNext {x : Nat} (hh : W.head = x) (hp : W.Persists σ x) :
    ∀ l, (∀ j < W.k, j ∉ l → W.Quiet σ x j) → DeqPc.Seen W σ (DeqPc.scanNext x l)
  | [], hq => ⟨hh, hp, fun j hj => hq j hj (List.not_mem_nil j)⟩
  | _ :: _, hq => ⟨hh, hp, hq⟩

/-- A step of the dequeue itself keeps what it knows of `W`, or, when it finds `head` unchanged
    (line 178) and starts its scan, knows the same of the memory it is in. -/
theorem DeqPc.Seen.step {c : Choice} {pc pc' : DeqPc} (h : DeqPc.Seen W σ pc)
    (hpc : (σ.deqStep c pc).2 = .dequeue pc') :
    DeqPc.Seen W (σ.deqStep c pc).1 pc' ∨ DeqPc.Seen σ (σ.deqStep c pc).1 pc' := by
  cases pc with
  | checkHead x =>
    simp only [Shared.deqStep] at hpc ⊢
    split_ifs at hpc ⊢ with hx <;> cases hpc
    · refine .inr (DeqPc.Seen.scanNext hx.symm (fun h0 => ⟨h0, fun j v hv => ⟨rfl, hv⟩⟩) _ fun j hj hn => ?_)
      exact absurd ((σ.shuffle_perm c).mem_iff.mpr (List.mem_range.mpr hj)) hn
    · exact .inl trivial
  | scan x i rest =>
    cases hpc
    exact .inl ⟨h.1, h.2.1, h.2.2, fun h0 v hv => ((h.2.1 h0).2 i v hv).1.symm⟩
  | scanRead x i p rest =>
    simp only [Shared.deqStep] at hpc ⊢
    split at hpc <;> cases hpc
    · exact .inl trivial
    · next hpn =>
      obtain ⟨hh, hp, hq, hi⟩ := h
      refine .inl (DeqPc.Seen.scanNext hh hp rest fun j hj hn => ?_)
      by_cases hji : j = i
      · -- the slot just read held no item in `W`: one there would still be there, at `p`
        subst hji
        intro h0
        cases hv : W.boxAt (W.slot x j) with
        | none => rfl
        | some v =>
          have := ((hp h0).2 j v hv).2
          rw [hi h0 v hv, hpn] at this
          cases this
      · exact hq j hj (List.not_mem_cons_of_ne_of_not_mem hji hn)
  | loadTail x found =>
    cases hpc
    cases found
    · exact .inl h
    · exact .inl trivial
  | checkHead2 x tl found =>
    rcases found with _ | ⟨i, p⟩ <;> simp only [Shared.deqStep] at hpc ⊢ <;> split_ifs at hpc ⊢ <;>
      cases hpc <;> exact .inl (by first | exact h | trivial)
  | loadNext x =>
    simp only [Shared.deqStep] at hpc ⊢
    split_ifs at hpc
    cases hpc
    exact .inl trivial
  | _ =>
    refine .inl ?_
    simp only [Shared.deqStep] at hpc
    (repeat' split at hpc) <;> cases hpc <;> trivial

/-- The step at which the dequeue returns `None`: it found `h.next` null (line 212), so `W`, in
    which `head` was `h`, held no item. -/
theorem DeqPc.Seen.empty {c : Choice} {pc : DeqPc} (hW : W.Shape) (h : DeqPc.Seen W σ pc)
    (hown : DeqPc.Own σ pc) (hpc : (σ.deqStep c pc).2 = .dequeued none) : W.Empty := by
  rcases σ.deqStep_thread c pc with ⟨pc', h'⟩ | ⟨p, rfl, h'⟩ | ⟨x, rfl, h0, -⟩
  · cases hpc.symm.trans h'
  · -- the box it took still holds its value
    obtain ⟨v, hv⟩ := hown.2
    rw [hpc, hv] at h'
    cases h'
  · obtain ⟨hh, hp, hq⟩ := h
    exact hW.empty_of_last hh (hp h0).1 fun j hj => hq j hj h0

end Seen

/-! ## Runs -/

/-- An action of `t` that invokes no call is a step of `t`. -/
theorem Action.eq_step {a : Action V} {t : Nat} (hta : t = a.thread)
    (hinv : a ≠ .dequeue t ∧ ∀ v, a ≠ .enqueue t v) : ∃ c, a = .step t c := by
  cases a with
  | enqueue u v => obtain rfl : t = u := hta; exact absurd rfl (hinv.2 v)
  | dequeue u => obtain rfl : t = u := hta; exact absurd rfl hinv.1
  | step u c => obtain rfl : t = u := hta; exact ⟨c, rfl⟩

namespace QState

variable {s s' : QState V} {t : Nat}

/-- A thread in no call takes no step. -/
theorem exec_step_ready (hr : (s.threads t).Ready = true) (c : Choice) : s.exec (.step t c) = none := by
  have : s.step t c = none := by
    unfold QState.step
    split
    · next heq => rw [heq] at hr; cases hr
    · next heq => rw [heq] at hr; cases hr
    · rfl
  simp only [exec, this]

/-- A run without invocations of `t` leaves a thread `t` that is in no call as it is. -/
theorem run_ready {as : List (Action V)} (hother : ∀ a ∈ as, a ≠ .dequeue t ∧ ∀ v, a ≠ .enqueue t v)
    (hr : (s.threads t).Ready = true) (h : s.run as = some s') : s'.threads t = s.threads t := by
  induction as generalizing s with
  | nil => cases h; rfl
  | cons a as ih =>
    obtain ⟨s₁, h₁, h₂⟩ := Option.bind_eq_some.mp h
    have ht : s₁.threads t = s.threads t := exec_threads_ne h₁ fun hta => by
      obtain ⟨c, rfl⟩ := Action.eq_step hta (hother a (List.mem_cons_self _ _))
      rw [exec_step_ready hr] at h₁
      cases h₁
    rw [← ht] at hr ⊢
    exact ih (fun b hb => hother b (List.mem_cons_of_mem _ hb)) hr h₂

end QState

/-- From a state in which the dequeue of `t` knows `Seen` of `W`, the run up to the step at which it
    returns `None`: `W`, or a memory of the run, held no item. -/
theorem DeqPc.Seen.run {k t : Nat} {c : Choice} :
    ∀ (as : List (Action V)) {σ s₂ s₃ : QState V} {W : Shared V} {pc : DeqPc}, Reachable k σ →
      W.Shape → σ.threads t = .dequeue pc → DeqPc.Seen W σ.sh pc →
      (∀ a ∈ as, a ≠ .dequeue t ∧ ∀ v, a ≠ .enqueue t v) → σ.run as = some s₂ →
      s₂.exec (.step t c) = some s₃ → s₃.threads t = .dequeued none →
      W.Empty ∨ ∃ n ≤ as.length, ∃ W', σ.run (as.take n) = some W' ∧ W'.sh.Empty
  | [], σ, _, _, _, _, hr, hW, ht, hseen, _, h₂, h₃, hnone => by
    cases h₂
    simp only [QState.exec, QState.step, ht, Option.some.injEq] at h₃
    subst h₃
    have hown := hr.own.own t
    rw [ht] at hown
    exact .inl (hseen.empty hW hown (by simpa only [store_same] using hnone))
  | a :: as, σ, s₂, s₃, W, pc, hr, hW, ht, hseen, hother, hrun, h₃, hnone => by
    obtain ⟨σ₁, h₁, h₂⟩ := Option.bind_eq_some.mp hrun
    have hother' := fun b hb => hother b (List.mem_cons_of_mem _ hb)
    have ih := fun {W} {pc} => @DeqPc.Seen.run k t c as σ₁ s₂ s₃ W pc (hr.exec h₁)
    -- an empty memory of the rest of the run is one of the whole run
    have shift : ∀ {W : Shared V}, (W.Empty ∨ ∃ n ≤ as.length, ∃ W', σ₁.run (as.take n) = some W' ∧ W'.sh.Empty) →
        W.Empty ∨ ∃ n ≤ (a :: as).length, ∃ W', σ.run ((a :: as).take n) = some W' ∧ W'.sh.Empty :=
      fun h => h.imp_right fun ⟨n, hn, W', hW', he⟩ =>
        ⟨n + 1, Nat.succ_le_succ hn, W', by simp only [List.take_succ_cons, QState.run, h₁, Option.some_bind, hW'], he⟩
    by_cases hta : t = a.thread
    · obtain ⟨c', rfl⟩ := Action.eq_step hta (hother a (List.mem_cons_self _ _))
      simp only [QState.exec, QState.step, ht, Option.some.injEq] at h₁
      subst h₁
      rcases σ.sh.deqStep_thread c' pc with ⟨pc', hpc'⟩ | hret
      · have ht₁ : (store σ.threads t (σ.sh.deqStep c' pc).2) t = .dequeue pc' := by rw [store_same, hpc']
        rcases hseen.step hpc' with hs' | hs'
        · exact shift (ih hW ht₁ hs' hother' h₂ h₃ hnone)
        · rcases ih hr.inv.shape ht₁ hs' hother' h₂ h₃ hnone with he | he
          · exact .inr ⟨0, Nat.zero_le _, σ, rfl, he⟩
          · exact shift (.inr he)
      · -- the dequeue returned before: it takes no step at the end
        have hready₁ : ((store σ.threads t (σ.sh.deqStep c' pc).2) t).Ready = true := by
          rcases hret with ⟨_, -, h⟩ | ⟨_, -, -, h⟩ <;> rw [store_same, h] <;> rfl
        rw [QState.exec_step_ready ((QState.run_ready hother' hready₁ h₂).symm ▸ hready₁)] at h₃
        cases h₃
    · have ht₁ := QState.exec_threads_ne h₁ hta
      exact shift (ih hW (ht₁.trans ht) ((hseen.mono (hr.inv.exec h₁).2 (hr.keep h₁)))
        hother' h₂ h₃ hnone)

/-- A `dequeue` of thread `t` that returns `None` saw an empty queue: some memory between its
    invocation and its return held no item in a slot of a segment reachable from `head`. -/
theorem dequeue_none_linearizable {k t : Nat} {c : Choice} {s₀ s₁ s₂ s₃ : QState V} {as : List (Action V)}
    (h₀ : Reachable k s₀) (h₁ : s₀.exec (.dequeue t) = some s₁)
    (hother : ∀ a ∈ as, a ≠ .dequeue t ∧ ∀ v, a ≠ .enqueue t v) (h₂ : s₁.run as = some s₂)
    (h₃ : s₂.exec (.step t c) = some s₃) (hnone : s₃.threads t = .dequeued none) :
    ∃ n ≤ as.length, ∃ W, s₁.run (as.take n) = some W ∧ W.sh.Empty := by
  have hr₁ := h₀.exec h₁
  have ht : s₁.threads t = .dequeue .loadHead := by
    simp only [QState.exec] at h₁
    split_ifs at h₁
    cases h₁
    exact store_same ..
  rcases DeqPc.Seen.run as hr₁ hr₁.inv.shape ht trivial hother h₂ h₃ hnone with he | he
  · exact ⟨0, Nat.zero_le _, s₁, rfl, he⟩
  · exact he

/-- Thread 0 enqueues `5` on `SegQueueOld::new(1)`. -/
def overtakeStart : List (Action Nat) := .enqueue 0 5 :: List.replicate 10 (.step 0 ⟨[0], false⟩)

/-- After thread 1 invokes a dequeue: thread 1 loads the slot that holds `5`; thread 2 dequeues
    `5`, linking a second segment on the way; thread 1 finds the box emptied, moves `head` to the
    second segment and scans it, up to its last step. -/
def overtakeRest : List (Action Nat) :=
  List.replicate 3 (.step 1 ⟨[0], false⟩) ++ .dequeue 2 :: List.replicate 13 (.step 2 ⟨[0], false⟩) ++
    List.replicate 17 (.step 1 ⟨[0], false⟩)

/-- Thread 1's dequeue returns `None` although the queue held `5` when it was invoked, and thread 2
    took `5` while thread 1 was scanning: the empty memory lies inside the call. -/
theorem dequeue_none_overtaken :
    ∃ s₀ s₁ s₂ s₃ : QState Nat, Reachable 1 s₀ ∧ s₀.exec (.dequeue 1) = some s₁ ∧ ¬ s₁.sh.Empty ∧
      s₁.run overtakeRest = some s₂ ∧ s₂.exec (.step 1 ⟨[0], false⟩) = some s₃ ∧
      s₃.threads 1 = .dequeued none ∧
      ∃ n ≤ overtakeRest.length, ∃ W, s₁.run (overtakeRest.take n) = some W ∧ W.sh.Empty := by
  obtain ⟨s₀, h₀, hp⟩ := @Reachable.of_run Nat 1 overtakeStart
    (fun s₀ => ((s₀.exec (.dequeue 1)).bind fun s₁ => (s₁.run overtakeRest).bind fun s₂ =>
      (s₂.exec (.step 1 ⟨[0], false⟩)).map fun s₃ =>
        !decide s₁.sh.Empty && s₃.threads 1 == .dequeued none) == some true)
    (by decide)
  simp only [Option.bind_eq_some, Option.map_eq_some', Bool.and_eq_true, Bool.not_eq_true',
    decide_eq_false_iff_not, beq_iff_eq] at hp
  obtain ⟨s₁, h₁, s₂, h₂, s₃, h₃, hne, hnone⟩ := hp
  have hother : ∀ a ∈ overtakeRest, a ≠ .dequeue 1 ∧ ∀ v, a ≠ .enqueue 1 v := by
    simp only [overtakeRest, List.mem_append, List.mem_cons, List.mem_replicate]
    rintro a ((⟨-, rfl⟩ | rfl | ⟨-, rfl⟩) | ⟨-, rfl⟩) <;> simp
  exact ⟨s₀, s₁, s₂, s₃, h₀, h₁, hne, h₂, h₃, hnone,
    dequeue_none_linearizable h₀ h₁ hother h₂ h₃ hnone⟩

end Rustcurrent.SegQueue
