import Rustcurrent.SegQueue.Relaxation

/-!
# Conservation of items, and a stranded item

In a state where no call is in progress (`Quiescent`), items are conserved (`Conserved`) when
every item whose enqueue call returned was taken by exactly one dequeue or sits in a slot of a
segment reachable from `head`. A dequeue returns the item it took before it leaves its call, so in
a quiescent state the items taken are the items returned.

Items are not conserved (`conservation_fails`). `commit` decides that its item is safe when
`head` is no longer the segment it stored into (`tail_old`) and that segment is not `deleted`
(line 144). But `advance_head` moves `head` past a segment by its exchange (line 296) and marks
it `deleted` only by a later store (line 298). An enqueue whose `commit` runs between the two
returns with its item in a segment that no longer is reachable from `head`, and no dequeue ever
finds it.
-/

namespace Rustcurrent.SegQueue

variable {V : Type}

namespace QState

/-- No call is in progress. -/
def Quiescent (s : QState V) : Prop := ∀ t, (s.threads t).Ready = true

/-- A run leaves every thread that takes no action in it as it was. -/
theorem run_threads_ne {t : Nat} :
    ∀ {s s' : QState V} {as : List (Action V)}, s.run as = some s' → (∀ a ∈ as, a.thread ≠ t) →
      s'.threads t = s.threads t
  | s, s', [], h, _ => by cases h; rfl
  | s, s', a :: as, h, hne => by
    obtain ⟨s₁, h₁, h₂⟩ := Option.bind_eq_some.mp h
    rw [run_threads_ne h₂ fun b hb => hne b (List.mem_cons_of_mem _ hb),
      exec_threads_ne h₁ (Ne.symm (hne a (List.mem_cons_self _ _)))]

end QState

/-- Every item whose enqueue call returned was taken by exactly one dequeue or sits in a slot of a
    segment reachable from `head`. -/
def Shared.Conserved (s : Shared V) : Prop :=
  ∀ b, (s.hist.returnedAt b).isSome → s.hist.taken.count b = 1 ∨ b ∈ s.held

/-- Thread 0 enqueues `3`. Thread 1 starts to enqueue `4` and stops before its exchange into slot 1
    of the first segment. Thread 2 dequeues `3`, and on the way links a second segment and moves
    `tail` to it. Thread 3 starts a dequeue, finds the first segment empty, and stops after
    `advance_head` moved `head` to the second segment, before it stores `deleted`. Thread 1 stores
    its item into the first segment and its `commit` returns `true`; thread 3 goes on and returns
    `None`. -/
def strandTrace : List (Action Nat) :=
  [.enqueue 0 3] ++ List.replicate 10 (.step 0 ⟨[0, 1], false⟩) ++
  [.enqueue 1 4] ++ List.replicate 5 (.step 1 ⟨[1, 0], false⟩) ++
  [.dequeue 2] ++ List.replicate 13 (.step 2 ⟨[0, 1], false⟩) ++
  [.dequeue 3] ++ List.replicate 15 (.step 3 ⟨[0, 1], false⟩) ++
  List.replicate 5 (.step 1 ⟨[0, 1], false⟩) ++ List.replicate 10 (.step 3 ⟨[0, 1], false⟩)

/-- The state `strandTrace` reaches. -/
def strandState : QState Nat :=
  ((SegQueueOld.new Nat 2).run strandTrace).getD (SegQueueOld.new Nat 2)

theorem strandState_reachable : Reachable 2 strandState := Reachable.of_isSome (by decide)

/-- The four calls have returned: two enqueues, a dequeue of `3` and a dequeue of `None`. -/
theorem strandState_threads :
    (strandState.threads 0, strandState.threads 1, strandState.threads 2, strandState.threads 3) =
      (.enqueued, .enqueued, .dequeued (some 3), .dequeued none) := by
  decide

theorem strandState_quiescent : strandState.Quiescent := by
  intro t
  by_cases ht : t < 4
  · obtain rfl | rfl | rfl | rfl : t = 0 ∨ t = 1 ∨ t = 2 ∨ t = 3 := by omega
    all_goals decide
  · have hrun : (SegQueueOld.new Nat 2).run strandTrace = some strandState :=
      QState.run_eq_getD (by decide) _
    rw [QState.run_threads_ne hrun fun a ha => ?_]
    · rfl
    · simp only [strandTrace, List.mem_append, List.mem_replicate, List.mem_singleton] at ha
      rcases ha with ((((((((rfl | ⟨-, rfl⟩) | rfl) | ⟨-, rfl⟩) | rfl) | ⟨-, rfl⟩) | rfl) |
        ⟨-, rfl⟩) | ⟨-, rfl⟩) | ⟨-, rfl⟩ <;> simp only [Action.thread] <;> omega

/-- The item of thread 1's enqueue (the box at 6, holding `4`) was returned by its enqueue, was
    taken by no dequeue and sits in no slot reachable from `head`: it is in slot 1 of the first
    segment, which `head` has passed. -/
theorem strandState_not_conserved : ¬ strandState.sh.Conserved := fun h => by
  have h6 := h 6 (by decide)
  revert h6
  decide

/-- Items are not conserved: some quiescent state reachable from `SegQueueOld::new(k)` has an item
    whose enqueue returned, that no dequeue took and that no slot reachable from `head` holds. -/
theorem conservation_fails :
    ¬ ∀ k (s : QState Nat), 1 ≤ k → Reachable k s → s.Quiescent → s.sh.Conserved :=
  fun h => strandState_not_conserved
    (h 2 strandState (by decide) strandState_reachable strandState_quiescent)

end Rustcurrent.SegQueue
