import Rustcurrent.SegQueue.Shape

/-!
# The history of the enqueue calls

An enqueue call is named by its item's box. The history records the clock and the tail at its
invocation and at its return; `Timeline` is what these records say in every reachable state. The
tail only moves forward, so a call that returned before another was invoked saw a tail no further
on (`order`). An item sits only in a segment that was the tail after its call was invoked, and
that is not past the tail at its return (`placed`): `try_enqueue` stores its item only into the
segment it loaded from `tail`, and `commit` returns with it there or takes it back.

The lemmas below say which operations keep `Timeline`: every operation that puts no item into a
slot and moves no record (`Timeline.of_mono`), an item stored by its own running call
(`Timeline.setSlot`), an invocation and a return, each with the clock tick after it.
-/

namespace Rustcurrent.SegQueue

namespace Shared

variable {V : Type} (s : Shared V)

/-- The box `b` is the item of an enqueue call. -/
def IsItem (b : Nat) : Prop := (s.hist.invokedAt b).isSome = true

/-- The history's facts about the enqueue calls. -/
structure Timeline : Prop where
  invoked_lt : ∀ b i, s.hist.invokedAt b = some i → i < s.hist.clock
  returned_lt : ∀ b r, s.hist.returnedAt b = some r →
    ∃ i, s.hist.invokedAt b = some i ∧ i < r ∧ r < s.hist.clock
  item_box : ∀ b, s.IsItem b → s.IsBox b
  invTail_le : ∀ b, s.IsItem b → s.hist.invTail b ≤ s.tail
  retTail_le : ∀ b, (s.hist.returnedAt b).isSome → s.hist.retTail b ≤ s.tail
  /-- A call that returned before another was invoked saw a tail no further on. -/
  order : ∀ u v r i, s.hist.returnedAt u = some r → s.hist.invokedAt v = some i → r < i →
    s.hist.retTail u ≤ s.hist.invTail v
  /-- Where an item sits. -/
  placed : ∀ a sg, s.segs a = some sg → ∀ b ∈ sg.data, s.IsItem b →
    s.hist.invTail b ≤ a ∧ a ≤ s.tail ∧ ((s.hist.returnedAt b).isSome → a ≤ s.hist.retTail b)

/-- A step leaves the records of the call of `b` as they were. -/
structure Keeps (s s' : Shared V) (b : Nat) : Prop where
  invoked : s'.hist.invokedAt b = s.hist.invokedAt b
  invTail : s'.hist.invTail b = s.hist.invTail b
  returned : s'.hist.returnedAt b = s.hist.returnedAt b

variable {s}

theorem Timeline.not_item_of_not_box (ht : s.Timeline) {b : Nat} (hb : ¬ s.IsBox b) :
    s.hist.invokedAt b = none :=
  Option.not_isSome_iff_eq_none.mp fun h => hb (ht.item_box b h)

/-- An operation that stores no item, moves no record and no tail backwards keeps the
    timeline. -/
theorem Timeline.of_mono {s' : Shared V} (ht : s.Timeline) (hclock : s'.hist.clock = s.hist.clock)
    (hinv : s'.hist.invokedAt = s.hist.invokedAt) (hret : s'.hist.returnedAt = s.hist.returnedAt)
    (hit : s'.hist.invTail = s.hist.invTail) (hrt : s'.hist.retTail = s.hist.retTail)
    (htail : s.tail ≤ s'.tail) (hbox : ∀ p, s.IsBox p → s'.IsBox p)
    (hdata : ∀ a sg', s'.segs a = some sg' → ∀ b ∈ sg'.data, s.IsItem b →
      ∃ sg, s.segs a = some sg ∧ b ∈ sg.data) : s'.Timeline := by
  have hitem : ∀ b, s'.IsItem b ↔ s.IsItem b := fun b => by simp only [IsItem, hinv]
  refine ⟨?_, ?_, fun b hb => hbox b (ht.item_box b ((hitem b).mp hb)), ?_, ?_, ?_, ?_⟩
  · rw [hinv, hclock]; exact ht.invoked_lt
  · rw [hret, hinv, hclock]; exact ht.returned_lt
  · intro b hb
    rw [hit]; exact (ht.invTail_le b ((hitem b).mp hb)).trans htail
  · intro b hb
    rw [hrt]; exact (ht.retTail_le b (hret ▸ hb)).trans htail
  · rw [hret, hinv, hrt, hit]; exact ht.order
  · intro a sg' h b hb hi
    obtain ⟨sg, hsg, hmem⟩ := hdata a sg' h b hb ((hitem b).mp hi)
    obtain ⟨h1, h2, h3⟩ := ht.placed a sg hsg b hmem ((hitem b).mp hi)
    rw [hit, hret, hrt]
    exact ⟨h1, h2.trans htail, h3⟩

theorem Timeline.tick (ht : s.Timeline) : s.tick.Timeline :=
  ⟨fun b i h => Nat.lt_succ_of_lt (ht.invoked_lt b i h),
    fun b r h => (ht.returned_lt b r h).imp fun _ ⟨h1, h2, h3⟩ => ⟨h1, h2, Nat.lt_succ_of_lt h3⟩,
    ht.item_box, ht.invTail_le, ht.retTail_le, ht.order, ht.placed⟩

/-- Storing `p` into a slot of `a`, where an item is stored only by its own running call, into
    the segment it loaded from `tail` after its invocation. -/
theorem Timeline.setSlot (ht : s.Timeline) {a i p : Nat}
    (hp : s.IsItem p → s.hist.invTail p ≤ a ∧ a ≤ s.tail ∧ s.hist.returnedAt p = none) :
    (s.setSlot a i p).Timeline := by
  refine ⟨ht.invoked_lt, ht.returned_lt, ht.item_box, ht.invTail_le, ht.retTail_le, ht.order, ?_⟩
  intro x sg h b hb hi
  rw [Shared.setSlot, modifySeg_segs] at h
  split_ifs at h with hxa
  · subst hxa
    obtain ⟨sg₀, h₀, rfl⟩ := Option.map_eq_some'.mp h
    rcases List.mem_or_eq_of_mem_set hb with hb | rfl
    · exact ht.placed x sg₀ h₀ b hb hi
    · obtain ⟨h1, h2, h3⟩ := hp hi
      refine ⟨h1, h2, fun h => ?_⟩
      have h : (s.hist.returnedAt b).isSome = true := h
      rw [h3] at h
      cases h
  · exact ht.placed x sg h b hb hi

/-- `enqueue(v)` is invoked, and the clock ticks past it. -/
theorem Timeline.invokeEnqueue (ht : s.Timeline) (hs : s.Shape) (v : V) :
    (s.invokeEnqueue v).tick.Timeline := by
  have hfresh : ¬ s.IsBox s.bound := fun h => Nat.lt_irrefl _ (hs.box_fresh _ h).2
  have hnone := ht.not_item_of_not_box hfresh
  have hne : ∀ b, s.IsItem b → b ≠ s.bound := fun b hb h => hfresh (h ▸ ht.item_box b hb)
  have hret : ∀ b, (s.hist.returnedAt b).isSome → s.IsItem b := fun b hb => by
    obtain ⟨r, hr⟩ := Option.isSome_iff_exists.mp hb
    obtain ⟨i, hi, -⟩ := ht.returned_lt b r hr
    simp [IsItem, hi]
  have hitem : ∀ b, (s.invokeEnqueue v).tick.IsItem b ↔ s.IsItem b ∨ b = s.bound := fun b => by
    by_cases hb : b = s.bound
    · subst hb; simp [IsItem, Shared.invokeEnqueue, Shared.tick]
    · simp [IsItem, Shared.invokeEnqueue, Shared.tick, store_ne _ hb, hb]
  refine ⟨fun b i h => ?_, fun b r h => ?_, fun b hb => ?_, fun b hb => ?_, ht.retTail_le,
    fun u w r i hu hw hri => ?_, fun a sg h b hb hi => ?_⟩
  · simp only [Shared.tick, Shared.invokeEnqueue, store_apply] at h ⊢
    split_ifs at h
    · cases h; exact Nat.lt_succ_self _
    · exact Nat.lt_succ_of_lt (ht.invoked_lt b i h)
  · have h : s.hist.returnedAt b = some r := h
    have hbb : b ≠ s.bound := hne b (hret b (by simp [h]))
    obtain ⟨i, h1, h2, h3⟩ := ht.returned_lt b r h
    exact ⟨i, by simp [Shared.tick, Shared.invokeEnqueue, store_ne _ hbb, h1], h2,
      Nat.lt_succ_of_lt h3⟩
  · unfold IsBox
    simp only [Shared.tick, Shared.invokeEnqueue, Shared.newBox, store_apply]
    rcases (hitem b).mp hb with hb | rfl
    · split_ifs
      · rfl
      · exact ht.item_box b hb
    · simp
  · simp only [Shared.tick, Shared.invokeEnqueue, store_apply]
    split_ifs
    · exact le_rfl
    · exact ht.invTail_le b (((hitem b).mp hb).resolve_right ‹_›)
  · simp only [Shared.tick, Shared.invokeEnqueue, store_apply] at hu hw ⊢
    have hub : u ≠ s.bound := hne u (hret u (by simp [hu]))
    split_ifs at hw ⊢ with hwb
    · exact ht.retTail_le u (by simp [hu])
    · exact ht.order u w r i hu hw hri
  · simp only [Shared.tick, Shared.invokeEnqueue, Shared.newBox] at h
    have hbox := (hs.slots a sg h).2 b hb
    have hbb : b ≠ s.bound := fun h => hfresh (h ▸ hbox)
    have hi' : s.IsItem b := ((hitem b).mp hi).resolve_right hbb
    simpa [Shared.tick, Shared.invokeEnqueue, store_ne _ hbb] using ht.placed a sg h b hb hi'

/-- The enqueue call of `b` returns, and the clock ticks past it. -/
theorem Timeline.enqueueReturn (ht : s.Timeline) {b : Nat} (hb : s.IsItem b) :
    (s.enqueueReturn b).tick.Timeline := by
  obtain ⟨ib, hib⟩ := Option.isSome_iff_exists.mp hb
  refine ⟨fun u i h => Nat.lt_succ_of_lt (ht.invoked_lt u i h), fun u r h => ?_, ht.item_box,
    ht.invTail_le, fun u hu => ?_, fun u w r i hu hw hri => ?_, fun a sg h u hu hi => ?_⟩
  · simp only [Shared.tick, Shared.enqueueReturn, store_apply] at h ⊢
    split_ifs at h with hub
    · cases h
      rw [hub]
      exact ⟨ib, hib, ht.invoked_lt b ib hib, Nat.lt_succ_self _⟩
    · obtain ⟨i, h1, h2, h3⟩ := ht.returned_lt u r h
      exact ⟨i, h1, h2, Nat.lt_succ_of_lt h3⟩
  · simp only [Shared.tick, Shared.enqueueReturn, store_apply] at hu ⊢
    split_ifs at hu ⊢
    · exact le_rfl
    · exact ht.retTail_le u hu
  · simp only [Shared.tick, Shared.enqueueReturn, store_apply] at hu hw ⊢
    split_ifs at hu ⊢ with hub
    · cases hu
      exact absurd (ht.invoked_lt w i hw) (by omega)
    · exact ht.order u w r i hu hw hri
  · obtain ⟨h1, h2, h3⟩ := ht.placed a sg h u hu hi
    simp only [Shared.tick, Shared.enqueueReturn, store_apply]
    split_ifs
    · exact ⟨h1, h2, fun _ => h2⟩
    · exact ⟨h1, h2, h3⟩

end Shared

end Rustcurrent.SegQueue
