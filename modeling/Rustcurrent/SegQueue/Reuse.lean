import Rustcurrent.SegQueue.Machine

/-!
# The queue over an allocator that reuses freed boxes

`SegQueueOld` frees boxes itself: the sentinel an enqueue's exchange replaced, once `commit`
returned `true` (line 88); the item box a dequeue took (line 198); `commit`'s unused sentinel
(lines 122, 129, 138, 150); `try_dequeue`'s unused sentinel (line 202); and the slots of a segment
`advance_tail` could not link (line 264, through `Segment`'s `Drop`). The machine of `Machine`
hands out fresh addresses only, so a freed box is never seen again there. Here the allocator may
hand a freed box address to a later box allocation.

A state is a state of that machine, the free list, and each thread's `old` (line 82), the box
its exchange replaced. An action comes with the address its box allocation takes: `none` for a
fresh one, `some x` for the freed address `x`. The code is the same: for one step the machine's
first unused address is set to `x`, so the step allocates there. With fresh addresses only, the
machine is the one of `Machine` (`RState.run_fresh`).

Segments handed to the hazard manager's `retire` (line 299) are not freed: the manager is not in
the sources, and keeping them allocated only removes runs. Segment addresses stay fresh.
-/

namespace Rustcurrent.SegQueue

variable {V : Type}

/-- The queue machine over an allocator that reuses freed boxes. -/
structure RState (V : Type) where
  q : QState V
  /-- The box addresses freed and not handed out since. -/
  free : List Nat
  /-- Each thread's `old` (line 82). -/
  olds : Nat → Nat

namespace RState

/-- Whether action `a` allocates one box: `enqueue`'s item (line 56), `commit`'s sentinel
    (line 116) or `try_dequeue`'s sentinel (line 193). -/
def allocatesBox (s : QState V) : Action V → Bool
  | .enqueue _ _ => true
  | .dequeue _ => false
  | .step t _ =>
    match s.threads t with
    | .enqueue _ (.commitHead ..) | .dequeue (.cas ..) => true
    | _ => false

/-- The boxes a thread frees as it goes from `th` to `th'` over the memory `s`, where `old` is its
    `old` and `nn` the box the step allocated. -/
def freed (s : Shared V) (old nn : Nat) : Thread V → Thread V → List Nat
  -- `commit` returned `true`: its sentinel, if it made one, then `old` (line 88)
  | .enqueue _ (.commitLoad ..), .enqueued => [old]
  | .enqueue _ (.commitSelf _ _ _ n), .enqueued => [n, old]
  | .enqueue _ (.commitDeleted2 ..), .enqueued => [old]
  | .enqueue _ (.commitUndo _ _ n), .enqueued => [n, old]
  -- the segment `advance_tail` could not link (line 264)
  | .enqueue _ (.advanceTail (.link _ new)), .enqueue _ .loadTail =>
    ((s.segs new).map Segment.data).getD []
  | .dequeue (.advanceTail _ _ _ (.link _ new)), .dequeue (.cas ..) =>
    ((s.segs new).map Segment.data).getD []
  -- the sentinel of a failed exchange (line 202), the item box taken (line 198)
  | .dequeue (.cas ..), .dequeue .loadHead => [nn]
  | .dequeue (.take p), .dequeued _ => [p]
  | _, _ => []

/-- A thread's `old` after it goes from `th` to `th'`: a successful exchange (line 82) sets it to
    the box it replaced. -/
def oldAfter (old : Nat) : Thread V → Thread V → Nat
  | .enqueue _ (.cas _ _ p), .enqueue _ (.commitLoad ..) => p
  | _, _ => old

/-- The state once action `a` took the queue machine to `q'`, allocating at `nn`, with `free` the
    free list left after the allocation. -/
def after (r : RState V) (free : List Nat) (a : Action V) (nn : Nat) (q' : QState V) : RState V :=
  match a with
  | .step t _ =>
    ⟨q', free ++ freed r.q.sh (r.olds t) nn (r.q.threads t) (q'.threads t),
      store r.olds t (oldAfter (r.olds t) (r.q.threads t) (q'.threads t))⟩
  | _ => ⟨q', free, r.olds⟩

/-- One action, whose box allocation takes a fresh address (`none`) or the freed address `x`;
    `none` when the action is not enabled or allocates no box at `x`. -/
def exec (r : RState V) (a : Action V) : Option Nat → Option (RState V)
  | none => (r.q.exec a).map (r.after r.free a r.q.sh.bound)
  | some x =>
    if x ∈ r.free ∧ allocatesBox r.q a = true then
      ((⟨{ r.q.sh with bound := x }, r.q.threads⟩ : QState V).exec a).map fun q' =>
        r.after (r.free.erase x) a x ⟨{ q'.sh with bound := r.q.sh.bound }, q'.threads⟩
    else none

def run (r : RState V) : List (Action V × Option Nat) → Option (RState V)
  | [] => some r
  | (a, x) :: as => (r.exec a x).bind fun r' => r'.run as

/-- `SegQueueOld::new(k)`, nothing freed yet. -/
def new (V : Type) (k : Nat) : RState V := ⟨SegQueueOld.new V k, [], fun _ => 0⟩

theorem after_q (r : RState V) (free : List Nat) (a : Action V) (nn : Nat) (q' : QState V) :
    (r.after free a nn q').q = q' := by
  cases a <;> rfl

/-- With every allocation fresh, the machine runs as the queue machine of `Machine`. -/
theorem run_fresh (r : RState V) (as : List (Action V)) :
    (r.run (as.map fun a => (a, none))).map RState.q = r.q.run as := by
  induction as generalizing r with
  | nil => rfl
  | cons a as ih =>
    simp only [List.map_cons, run, exec, QState.run]
    cases r.q.exec a with
    | none => rfl
    | some q' => simp only [Option.map_some', Option.some_bind, ih, after_q]

end RState

/-! ## A slot exchange on a reused address

`SegQueueOld::new(1)`: the segment at 2 has one slot, holding the sentinel at 1. Thread 0 calls
`enqueue(10)`, with its item at 3, and loads the sentinel 1 from the slot. Thread 1 runs
`enqueue(20)` to completion: its exchange puts its item 4 into the slot, `commit` returns `true`
and line 88 frees the sentinel 1. Thread 2 calls `dequeue`, finds 4, links a segment behind the
full one (the queue has one segment, line 191) and takes 4, putting into the slot its new sentinel
of line 193, for which the allocator returns the freed address 1. Thread 0's exchange, which
expects the 1 it loaded, then succeeds. -/

/-- The action of `t` with the shuffle `[0]` and no spurious failure, its allocation fresh. -/
def abaStep (t : Nat) : Action Nat × Option Nat := (.step t ⟨[0], false⟩, none)

/-- Thread 0 invokes `enqueue(10)` and loads the slot. -/
def abaLoad : List (Action Nat × Option Nat) := (.enqueue 0 10, none) :: List.replicate 3 (abaStep 0)

/-- Thread 0 reads the sentinel and rechecks `tail`; thread 1 runs `enqueue(20)`. -/
def abaFree : List (Action Nat × Option Nat) :=
  List.replicate 2 (abaStep 0) ++ (.enqueue 1 20, none) :: List.replicate 10 (abaStep 1)

/-- Thread 2 runs `dequeue` up to its exchange, whose sentinel takes the address 1. -/
def abaReuse : List (Action Nat × Option Nat) :=
  (.dequeue 2, none) :: List.replicate 11 (abaStep 2) ++ [(.step 2 ⟨[0], false⟩, some 1)]

def abaLoaded : RState Nat := ((RState.new Nat 1).run abaLoad).getD (RState.new Nat 1)

def abaFreed : RState Nat := (abaLoaded.run abaFree).getD abaLoaded

def abaReused : RState Nat := (abaFreed.run abaReuse).getD abaFreed

/-- Thread 0 loads the sentinel 1 from slot 0 of segment 2; the sentinel is freed, the allocator
    hands its address to thread 2's new sentinel, which thread 2 stores into the same slot; and
    thread 0's exchange, still expecting the 1 it loaded, succeeds and replaces that new box. -/
theorem slot_exchange_aba :
    ((RState.new Nat 1).run abaLoad).isSome ∧ (abaLoaded.run abaFree).isSome ∧
      (abaFreed.run abaReuse).isSome ∧
    abaLoaded.q.threads 0 = .enqueue 3 (.scanRead 2 0 1 []) ∧ abaLoaded.q.sh.slot 2 0 = 1 ∧
    1 ∈ abaFreed.free ∧
    1 ∉ abaReused.free ∧ abaReused.q.sh.slot 2 0 = 1 ∧ abaReused.q.threads 0 = .enqueue 3 (.cas 2 0 1) ∧
    ((abaReused.exec (.step 0 ⟨[0], false⟩) none).map fun r => (r.q.threads 0, r.q.sh.slot 2 0)) =
      some (.enqueue 3 (.commitLoad 2 0), 3) := by
  decide

end Rustcurrent.SegQueue
