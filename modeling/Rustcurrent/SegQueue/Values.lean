import Rustcurrent.SegQueue.Emptiness

/-!
# No value is returned twice

Across every interleaving of calls, the values the dequeue calls of a run return are values the
enqueue calls passed in, each at most as often as it was passed (`dequeued_subperm_enqueued`):
no dequeue returns a value twice over, and none returns a value no enqueue gave.

The values the boxes hold (`Shared.values`) change only when `enqueue(v)` boxes `v` (line 56) and
when a dequeue reads the box it took and returns its value (line 197, `ptr::replace(p, None)`).
Every other access writes no box below `bound`, and from `bound` on the boxes hold nothing
(`QState.boxAt_step`). So over any run, the values boxed at its start and the values enqueued
along it hold every value returned along it (`Reachable.returned_subperm`).
-/

namespace Rustcurrent.SegQueue

variable {V : Type}

/-! ## What a run hands out -/

/-- The values the boxes hold. -/
def Shared.values (s : Shared V) : List V := (List.range s.bound).filterMap s.boxAt

/-- The value a thread's call returned, if it was a dequeue that returned one. -/
def Thread.returnedValue : Thread V → List V
  | .dequeued r => r.toList
  | _ => []

/-- The value an action passes to `enqueue`. -/
def Action.enqueued : Action V → List V
  | .enqueue _ v => [v]
  | _ => []

/-- The value a dequeue returns at the action `a`, read off the state `s'` after it. -/
def QState.returned (s' : QState V) : Action V → List V
  | .step t _ => (s'.threads t).returnedValue
  | _ => []

/-- The values the dequeue calls return along the run of `as` from `s`, in order, up to the first
    action that is not enabled. -/
def QState.dequeued (s : QState V) : List (Action V) → List V
  | [] => []
  | a :: as =>
    match s.exec a with
    | some s' => s'.returned a ++ s'.dequeued as
    | none => []

/-! ## Lists of what the boxes hold -/

section Lists

variable {α : Type} {f g : Nat → Option α}

/-- Entries from `n` on that hold nothing add nothing. -/
theorem filterMap_range_of_none {n m : Nat} (h : n ≤ m) (hf : ∀ q, n ≤ q → f q = none) :
    (List.range m).filterMap f = (List.range n).filterMap f := by
  obtain ⟨d, rfl⟩ := Nat.exists_eq_add_of_le h
  have hd : (List.map (fun x => n + x) (List.range d)).filterMap f = [] :=
    List.filterMap_eq_nil_iff.mpr fun x hx => by
      obtain ⟨i, -, rfl⟩ := List.mem_map.mp hx
      exact hf _ (Nat.le_add_right _ _)
  rw [List.range_add, List.filterMap_append, hd, List.append_nil]

/-- Emptying the entry `p` below `n` takes its value out of the list. -/
theorem filterMap_range_erase {p : Nat} (hg : ∀ q, q ≠ p → g q = f q) (hp : g p = none) :
    ∀ n, p < n → ((List.range n).filterMap f).Perm ((List.range n).filterMap g ++ (f p).toList)
  | 0, h => absurd h (Nat.not_lt_zero _)
  | n + 1, h => by
    simp only [List.range_succ, List.filterMap_append]
    rcases Nat.lt_succ_iff_lt_or_eq.mp h with h | rfl
    · have hn : [n].filterMap g = [n].filterMap f :=
        List.filterMap_congr fun q hq => by rw [List.mem_singleton.mp hq]; exact hg n (Nat.ne_of_gt h)
      rw [hn]
      exact ((filterMap_range_erase hg hp n h).append_right _).trans
        (by simp only [List.append_assoc]; exact List.Perm.append_left _ List.perm_append_comm)
    · rw [List.filterMap_congr fun q hq => hg q (Nat.ne_of_lt (List.mem_range.mp hq))]
      cases hf : f p <;> simp [hp, hf]

end Lists

namespace Shared

variable {s s' : Shared V}

/-- A memory whose boxes read as before, over at least the same addresses, holds the same
    values, when the boxes from `bound` on hold nothing. -/
theorem values_eq (hb : s.bound ≤ s'.bound) (hbox : ∀ q, s'.boxAt q = s.boxAt q)
    (hf : ∀ q, s.bound ≤ q → s.boxAt q = none) : s'.values = s.values := by
  unfold values
  rw [show s'.boxAt = s.boxAt from funext hbox]
  exact filterMap_range_of_none hb hf

@[simp] theorem values_tick : s.tick.values = s.values := rfl

/-- `Box::new(v)` (line 56) adds `v`. -/
theorem values_invokeEnqueue (v : V) :
    (s.invokeEnqueue v).values = s.values ++ [v] := by
  have hbox : ∀ q, (s.invokeEnqueue v).boxAt q = if q = s.bound then some v else s.boxAt q :=
    boxAt_newBox (some v)
  show (List.range (s.bound + 1)).filterMap _ = _
  rw [List.range_succ, List.filterMap_append,
    List.filterMap_congr fun q hq => (hbox q).trans (if_neg (Nat.ne_of_lt (List.mem_range.mp hq)))]
  simp [hbox, values]

/-- `ptr::replace(p, None)` (line 197) takes the value of the box `p` out. -/
theorem values_replaceBox {p : Nat} (hp : p < s.bound) :
    s.values.Perm ((s.replaceBox p).values ++ (s.boxAt p).toList) :=
  filterMap_range_erase (fun q hq => (boxAt_replaceBox p q).trans (if_neg hq))
    ((boxAt_replaceBox p p).trans (if_pos rfl)) _ hp

theorem hist_casTail (old x : Nat) : (s.casTail old x).hist = s.hist := by
  unfold casTail
  split_ifs <;> rfl

theorem invokedAt_advanceTail (pc : TailPc) : (s.advanceTail pc).1.hist.invokedAt = s.hist.invokedAt := by
  cases pc <;> simp only [advanceTail] <;> (try split_ifs) <;> simp only [hist_casTail] <;> rfl

/-- Inside a call, no enqueue is invoked. -/
theorem invokedAt_enqStep {b : Nat} {c : Choice} (pc : EnqPc) :
    (s.enqStep b c pc).1.hist.invokedAt = s.hist.invokedAt := by
  cases pc with
  | advanceTail pc =>
    simp only [enqStep]
    split <;> next heq => rw [← invokedAt_advanceTail (s := s) pc, heq]
  | _ => simp only [enqStep] <;> (repeat' split) <;> rfl

theorem invokedAt_deqStep {c : Choice} (pc : DeqPc) : (s.deqStep c pc).1.hist.invokedAt = s.hist.invokedAt := by
  cases pc with
  | advanceTail x i p pc =>
    simp only [deqStep]
    split <;> next heq => rw [← invokedAt_advanceTail (s := s) pc, heq]
  | headSwingTail x hn tl tn => simp only [deqStep, hist_casTail]
  | _ => simp only [deqStep] <;> (repeat' split) <;> rfl

/-- An enqueue returns no value. -/
theorem enqStep_returnedValue {b : Nat} {c : Choice} (pc : EnqPc) :
    (s.enqStep b c pc).2.returnedValue = [] := by
  cases pc <;> simp only [enqStep] <;> (repeat' split) <;> rfl

end Shared

/-! ## One step -/

namespace QState

variable {k t : Nat} {c : Choice} {s s' : QState V} {r : Shared V × Thread V}

theorem invokedAt_step (h : s.step t c = some r) : r.1.hist.invokedAt = s.sh.hist.invokedAt := by
  unfold step at h
  split at h <;> cases h
  · exact Shared.invokedAt_enqStep _
  · exact Shared.invokedAt_deqStep _

/-- A step writes no box but the one a dequeue reads after taking it: below `bound` by the frame
    lemmas of the calls, and from `bound` on because a box holding a value is an item's, and only
    an invocation boxes an item. -/
theorem boxAt_step (hr : Reachable k s) (h : s.step t c = some r) {q : Nat}
    (hq : (s.threads t).taking ≠ some q) : r.1.boxAt q = s.sh.boxAt q := by
  have hi := hr.inv
  obtain ⟨os, hbox, -⟩ := step_own hi hr.own h
  by_cases hb : q < s.sh.bound
  · exact hbox q hb hq
  rw [hi.shape.boxAt_eq_none (Nat.le_of_not_lt hb)]
  cases hv : r.1.boxAt q with
  | none => rfl
  | some v =>
    have hit := os.mem.owned.some_item q v hv
    unfold Shared.IsItem at hit
    rw [invokedAt_step h] at hit
    exact absurd hit (hi.timeline.not_item_fresh hi.shape (Nat.le_of_not_lt hb))

/-- A step returns no value, unless it is a dequeue reading the box it took. -/
theorem returnedValue_step (h : s.step t c = some r) (hnt : ∀ p, s.threads t ≠ .dequeue (.take p)) :
    r.2.returnedValue = [] := by
  unfold step at h
  split at h <;> cases h
  · exact Shared.enqStep_returnedValue _
  · next pc heq =>
    rcases Shared.deqStep_thread c pc with ⟨pc', he⟩ | ⟨p, rfl, -⟩ | ⟨x, -, -, he⟩
    · rw [he]; rfl
    · exact absurd heq (hnt p)
    · rw [he]; rfl

/-- A step of thread `t`: the values boxed before it are the values boxed after it and the value
    it returns. -/
theorem values_step (hr : Reachable k s) (h : s.step t c = some r) :
    s.sh.values.Perm (r.2.returnedValue ++ r.1.values) := by
  have hi := hr.inv
  by_cases htk : ∃ p, s.threads t = .dequeue (.take p)
  · obtain ⟨p, hp⟩ := htk
    simp only [step, hp, Option.some.injEq] at h
    subst h
    obtain ⟨v, hv⟩ := ((hr.own.own t).taking (by rw [hp]; rfl)).2
    exact (Shared.values_replaceBox (hi.shape.lt_bound_of_boxAt (by simp [hv]))).trans List.perm_append_comm
  · have hnt : ∀ p, s.threads t ≠ .dequeue (.take p) := fun p hp => htk ⟨p, hp⟩
    rw [returnedValue_step h hnt, List.nil_append,
      Shared.values_eq (step_own hi hr.own h).1.mem.tracks.bound_le
        (fun q => boxAt_step hr h fun hq => hnt q (Thread.eq_of_taking hq))
        fun q hq => hi.shape.boxAt_eq_none hq]

/-- Any action: the values boxed before it and the value it enqueues are the value it returns and
    the values boxed after it. -/
theorem values_exec (hr : Reachable k s) {a : Action V} (h : s.exec a = some s') :
    (s.sh.values ++ a.enqueued).Perm (s'.returned a ++ s'.sh.values) := by
  cases a with
  | enqueue t v =>
    simp only [exec] at h
    split_ifs at h
    cases h
    simp only [returned, Action.enqueued, List.nil_append, Shared.values_tick,
      Shared.values_invokeEnqueue]
    exact List.Perm.refl _
  | dequeue t =>
    simp only [exec] at h
    split_ifs at h
    cases h
    simp [returned, Action.enqueued]
  | step t c =>
    simp only [exec] at h
    cases hst : s.step t c with
    | none => simp only [hst] at h; cases h
    | some r =>
      simp only [hst, Option.some.injEq] at h
      subst h
      simp only [returned, store_same, Action.enqueued, List.append_nil, Shared.values_tick]
      exact values_step hr hst

end QState

/-! ## Runs -/

/-- Over every run from a reachable state, the values the dequeue calls return are among the
    values boxed at its start and the values enqueued along it, each at most as often. -/
theorem Reachable.returned_subperm {k : Nat} :
    ∀ (as : List (Action V)) {s : QState V}, Reachable k s →
      (s.dequeued as).Subperm (s.sh.values ++ as.flatMap Action.enqueued)
  | [], _, _ => List.nil_subperm
  | a :: as, s, hr => by
    simp only [QState.dequeued]
    cases h : s.exec a with
    | none => exact List.nil_subperm
    | some s₁ =>
      refine ((List.subperm_append_left _).mpr (Reachable.returned_subperm as (hr.exec h))).trans ?_
      rw [List.flatMap_cons, ← List.append_assoc, ← List.append_assoc]
      exact ((QState.values_exec hr h).symm.append_right _).subperm

theorem values_new (k : Nat) : (SegQueueOld.new V k).sh.values = [] :=
  List.filterMap_eq_nil_iff.mpr fun q _ => boxAt_new k q

/-- Across every interleaving of calls on `SegQueueOld::new(k)`, the dequeue calls return only
    values the enqueue calls passed in, each at most as often as it was passed. -/
theorem dequeued_subperm_enqueued (k : Nat) (as : List (Action V)) :
    ((SegQueueOld.new V k).dequeued as).Subperm (as.flatMap Action.enqueued) := by
  simpa [values_new] using Reachable.returned_subperm as (⟨[], rfl⟩ : Reachable k (SegQueueOld.new V k))

end Rustcurrent.SegQueue
