import Rustcurrent.SegQueue.Conservation

/-!
# The representation invariant of `SegQueueOld`

What every reachable state of the queue is as a data structure (`Rep`), and what every action can
do to it (`Moves`), in the terms of `seg_queue_old.rs`: `head` and `tail` are never null, the
segments ever linked form one chain through `next` that ends in null and holds every link of the
heap, `tail` is reachable from `head`, no segment reachable from `head` is `deleted`, and every
segment has `k` slots, each a non-null box; a `next` changes only while it is null, and `head` and
`tail` each move at most one link forward.

Both are read off the invariant `Inv` of every reachable state: `Rep` from its `Shape`, `Moves`
from the `Grows` step that `Inv.exec` gives for every action.
-/

namespace Rustcurrent.SegQueue

namespace Shared

variable {V : Type} (s : Shared V)

/-- The representation invariant of a queue made by `SegQueueOld::new(k)`. -/
structure Rep (k : Nat) : Prop where
  head_ne : s.head ≠ 0
  tail_ne : s.tail ≠ 0
  /-- The segments ever linked, in order, each linked to the next, the last `next` null. -/
  chain : s.Linked s.hist.chain
  head_mem : s.head ∈ s.hist.chain
  /-- Every non-null `next` of the heap is a link of the chain. -/
  links : ∀ a, s.nextOf a ≠ 0 → a ∈ s.hist.chain ∧ s.nextOf a ∈ s.hist.chain
  tail_reach : s.tail ∈ s.reach
  head_next : s.head ≠ s.tail → s.nextOf s.head ≠ 0
  undeleted : ∀ a ∈ s.reach, s.deletedOf a = false
  slots : ∀ a sg, s.segs a = some sg → sg.data.length = k ∧ ∀ p ∈ sg.data, p ≠ 0 ∧ s.IsBox p

/-- What one action can do to the representation. -/
structure Moves (s s' : Shared V) : Prop where
  chain_prefix : s.hist.chain <+: s'.hist.chain
  /-- A `next` is written only while it is null. -/
  next_eq : ∀ a, s.nextOf a ≠ 0 → s'.nextOf a = s.nextOf a
  head_step : s'.head = s.head ∨ s.nextOf s.head ≠ 0 ∧ s'.head = s.nextOf s.head
  tail_step : s'.tail = s.tail ∨ s.nextOf s.tail ≠ 0 ∧ s'.tail = s.nextOf s.tail

variable {s}

theorem Shape.rep (hs : s.Shape) : s.Rep s.k := by
  have hpos : ∀ a ∈ s.hist.chain, a ≠ 0 := fun a ha => (hs.seg_fresh a (hs.chain_seg a ha)).1.ne'
  refine ⟨hpos _ hs.head_mem, hpos _ hs.tail_mem, hs.linked, hs.head_mem, fun a h => ?_,
    hs.mem_reach.mpr ⟨hs.tail_mem, hs.head_le_tail⟩, fun hne => ?_, fun a ha => ?_,
    fun a sg h => ?_⟩
  · exact ⟨hs.unlinked a h, (hs.linked.next_mem (hs.unlinked a h) h).1⟩
  · exact (hs.linked.next_le hs.head_mem hs.tail_mem (lt_of_le_of_ne hs.head_le_tail hne)).1
  · obtain ⟨hc, hle⟩ := hs.mem_reach.mp ha
    exact hs.undeleted a hc hle
  · obtain ⟨hlen, hbox⟩ := hs.slots a sg h
    exact ⟨hlen, fun p hp => ⟨(hs.box_fresh p (hbox p hp)).1.ne', hbox p hp⟩⟩

theorem Grows.moves {s' : Shared V} (g : Grows s s') : Moves s s' :=
  ⟨g.chain_prefix, g.next_eq, g.head_step, g.tail_step⟩

end Shared

open Shared

variable {V : Type}

/-- Every state reachable from `SegQueueOld::new(k)` satisfies the representation invariant, and
    every action from it moves the representation only as `Moves` allows. -/
theorem representation_invariant {k : Nat} {s : QState V} (h : Reachable k s) :
    s.sh.Rep k ∧ ∀ a s', s.exec a = some s' → Moves s.sh s'.sh :=
  ⟨h.k_eq ▸ h.inv.shape.rep, fun _ _ ha => (h.inv.exec ha).2.moves⟩

/-- Two steps before the end of its scan in `strandTrace`, thread 3's `advance_head` moves `head`
    one link forward while thread 1 is inside its enqueue. -/
theorem representation_invariant_strand :
    ∃ s s' : QState Nat, Reachable 2 s ∧ s.exec (.step 3 ⟨[0, 1], false⟩) = some s' ∧
      s'.sh.head ≠ s.sh.head ∧ s.sh.Rep 2 ∧ Moves s.sh s'.sh := by
  obtain ⟨s, hs, hp⟩ := @Reachable.of_run Nat 2 (strandTrace.take 46)
    (fun s => ((s.exec (.step 3 ⟨[0, 1], false⟩)).map fun s' => s'.sh.head != s.sh.head) == some true)
    (by decide)
  simp only [beq_iff_eq, Option.map_eq_some', bne_iff_ne] at hp
  obtain ⟨s', h₁, hne⟩ := hp
  exact ⟨s, s', hs, h₁, hne, (representation_invariant hs).1, (representation_invariant hs).2 _ _ h₁⟩

end Rustcurrent.SegQueue
