import Mathlib.Data.List.Basic

/-!
# The segmented queue as a thread machine

`seg_queue_old.rs`. The queue is a linked list of segments, each a vector of `k` slots pointing to
boxes `Box<Option<T>>`: a box holding `Some(v)` is an item, one holding `None` a sentinel.
`enqueue` swaps its item's box for a sentinel of the tail segment and `commit`s the swap,
`dequeue` swaps an item's box for a fresh sentinel of the head segment, and `advance_tail` and
`advance_head` move the two ends one link forward.

Every call runs as a thread whose program point names the next access it makes to shared memory:
an atomic load, compare-and-exchange or store, a dereference of a box, or an allocation merged
with the access that follows it. A step is one access of one thread, so every interleaving of
the source's calls is a run. Allocation is fresh: a bump pointer hands out addresses that were
never used. A freed address is then never seen again, and a freed block keeps its contents, so
frees change nothing a call can observe and are left out. The hazard-pointer manager of the
`memory` crate is not in the sources; its `protect`, `unprotect` and `retire` guard only
reclamation, which the fresh allocator makes unobservable.

The state also carries history that no call reads: the segments ever linked, a clock, the item
boxes that dequeues took, and for every enqueue call (named by its item's box) the clock and the
tail at its invocation and at its return.
-/

namespace Rustcurrent.SegQueue

/-- `f` with the value at address `a` replaced by `v`. Unlike `Function.update` it casts nothing,
    so a run on fixed inputs evaluates quickly. -/
def store {α : Type} (f : Nat → α) (a : Nat) (v : α) : Nat → α := fun x => if x = a then v else f x

@[simp] theorem store_same {α : Type} (f : Nat → α) (a : Nat) (v : α) : store f a v a = v := if_pos rfl

@[simp] theorem store_ne {α : Type} {f : Nat → α} {a x : Nat} (v : α) (h : x ≠ a) :
    store f a v x = f x := if_neg h

theorem store_apply {α : Type} (f : Nat → α) (a x : Nat) (v : α) :
    store f a v x = if x = a then v else f x := rfl

/-- `Segment<T>`. -/
structure Segment where
  /-- `data`: the box address each slot points to. -/
  data : List Nat
  /-- `next`; `0` is null. -/
  next : Nat
  /-- `deleted`. -/
  deleted : Bool
  deriving DecidableEq, Repr

/-- The history of a run: written by the machine, read by no call. -/
structure History where
  /-- The number of actions taken so far. -/
  clock : Nat
  /-- The segments ever linked, the first segment first, in the order they were linked. -/
  chain : List Nat
  /-- The item boxes taken by `try_dequeue`'s exchange (line 195), in order. -/
  taken : List Nat
  /-- For the enqueue call of an item box: the clock at its invocation. -/
  invokedAt : Nat → Option Nat
  /-- For the enqueue call of an item box: the clock at its return. -/
  returnedAt : Nat → Option Nat
  /-- For the enqueue call of an item box: the tail at its invocation. -/
  invTail : Nat → Nat
  /-- For the enqueue call of an item box: the tail at its return. -/
  retTail : Nat → Nat

/-! ## Program points -/

/-- The accesses of `advance_tail(old)`. -/
inductive TailPc where
  /-- Line 254: load `tail` and compare it with `old`. -/
  | loadTail (old : Nat)
  /-- Line 257: load `old.next`. -/
  | loadNext (old : Nat)
  /-- Line 258: load `tail` again; if `next` is null, allocate a segment (line 261). -/
  | recheck (old next : Nat)
  /-- Line 262: `old.next.compare_exchange(null, new)`. -/
  | link (old new : Nat)
  /-- Line 263: `tail.compare_exchange(old, new)`. -/
  | swingNew (old new : Nat)
  /-- Line 268: `tail.compare_exchange(old, next)`. -/
  | swing (old next : Nat)
  deriving DecidableEq, Repr

/-- The accesses of `try_enqueue`, `find_empty_slot` and `commit`, for a segment `tl` loaded from
    `tail` and a slot `i`. -/
inductive EnqPc where
  /-- Line 66. -/
  | loadTail
  /-- Line 69; the shuffle of line 75 follows. -/
  | checkTail (tl : Nat)
  /-- Line 227: load slot `i`; `rest` are the slots of the order still to try. -/
  | scan (tl i : Nat) (rest : List Nat)
  /-- Line 228: dereference the box `p` loaded from slot `i`. -/
  | scanRead (tl i p : Nat) (rest : List Nat)
  /-- Line 78. -/
  | recheck (tl i p : Nat)
  /-- Line 81: `compare_exchange_weak(p, item)` on slot `i`. -/
  | cas (tl i p : Nat)
  /-- Line 111. -/
  | commitLoad (tl i : Nat)
  /-- Line 115, and the sentinel `new_none_ptr` of line 116. -/
  | commitHead (tl i : Nat)
  /-- Line 118, with the comparison of line 126. -/
  | commitDeleted (tl i h nn : Nat)
  /-- Line 127: `head.compare_exchange(h, h)`. -/
  | commitSelf (tl i h nn : Nat)
  /-- Line 144. -/
  | commitDeleted2 (tl i nn : Nat)
  /-- Lines 119, 133 and 147: `compare_exchange(item, nn)` on slot `i`. -/
  | commitUndo (tl i nn : Nat)
  /-- Line 105: inside `advance_tail(tl)`. -/
  | advanceTail (pc : TailPc)
  deriving DecidableEq, Repr

/-- The accesses of `try_dequeue`, `find_item` and `advance_head`, for a segment `h` loaded from
    `head`. -/
inductive DeqPc where
  /-- Line 176. -/
  | loadHead
  /-- Line 178; the shuffle of line 183 follows. -/
  | checkHead (h : Nat)
  /-- Line 242: load slot `i`. -/
  | scan (h i : Nat) (rest : List Nat)
  /-- Line 243: dereference the box `p` loaded from slot `i`. -/
  | scanRead (h i p : Nat) (rest : List Nat)
  /-- Line 185, with what `find_item` returned. -/
  | loadTail (h : Nat) (found : Option (Nat × Nat))
  /-- Line 187, with the comparison of line 190. -/
  | checkHead2 (h tl : Nat) (found : Option (Nat × Nat))
  /-- Line 191: inside `advance_tail`, with the exchange of slot `i` still to come. -/
  | advanceTail (h i p : Nat) (pc : TailPc)
  /-- Line 195, after the sentinel of line 193: `compare_exchange(p, new_none_ptr)` on slot `i`. -/
  | cas (h i p : Nat)
  /-- Line 197: `ptr::replace(p, None)`. -/
  | take (p : Nat)
  /-- Line 212. -/
  | loadNext (h : Nat)
  /-- Line 276: `advance_head(h)` loads `head`. -/
  | headLoad (h : Nat)
  /-- Line 279. -/
  | headLoadTail (h : Nat)
  /-- Line 281: load `tl.next`. -/
  | headTailNext (h tl : Nat)
  /-- Line 282: load `h.next`. -/
  | headNext (h tl tn : Nat)
  /-- Line 283, with the tests of lines 284 and 285. -/
  | headRecheck (h tl tn hn : Nat)
  /-- Line 289. -/
  | headCheckTail (h hn tl tn : Nat)
  /-- Line 291: `tail.compare_exchange(tl, tn)`. -/
  | headSwingTail (h hn tl tn : Nat)
  /-- Line 296: `head.compare_exchange(h, hn)`. -/
  | headSwing (h hn : Nat)
  /-- Line 298: `h.deleted.store(true)`. -/
  | headDelete (h : Nat)
  deriving DecidableEq, Repr

/-- Where `find_empty_slot` goes after the slots it has passed: the next slot of the order, or,
    once none is left, `advance_tail(tl)` (line 105). -/
def EnqPc.scanNext (tl : Nat) : List Nat → EnqPc
  | [] => .advanceTail (.loadTail tl)
  | i :: rest => .scan tl i rest

/-- Where `find_item` goes after the slots it has passed: the next slot of the order, or, once
    none is left, line 185 with nothing found. -/
def DeqPc.scanNext (h : Nat) : List Nat → DeqPc
  | [] => .loadTail h none
  | i :: rest => .scan h i rest

/-- A thread: idle, inside a call, or after its last call returned. -/
inductive Thread (V : Type) where
  | idle
  /-- Inside `enqueue`, with the address of its item's box. -/
  | enqueue (item : Nat) (pc : EnqPc)
  /-- Inside `dequeue`. -/
  | dequeue (pc : DeqPc)
  /-- `enqueue` returned. -/
  | enqueued
  /-- `dequeue` returned `r`. -/
  | dequeued (r : Option V)
  deriving DecidableEq, Repr

/-- The outcomes of a step: the shuffle of `vals` (lines 75 and 183) and whether
    `compare_exchange_weak` (line 81) fails spuriously. -/
structure Choice where
  order : List Nat
  spurious : Bool
  deriving DecidableEq, Repr

/-- The queue's shared memory, the allocator and the history. -/
structure Shared (V : Type) where
  k : Nat
  head : Nat
  tail : Nat
  segs : Nat → Option Segment
  /-- The boxes: `some (some v)` an item, `some none` a sentinel. -/
  boxes : Nat → Option (Option V)
  /-- The next address the allocator hands out; every address from it on is unused. -/
  bound : Nat
  hist : History

namespace Shared

variable {V : Type} (s : Shared V)

/-! ## Memory accesses -/

/-- `a.next`. -/
def nextOf (a : Nat) : Nat := ((s.segs a).map Segment.next).getD 0

/-- `a.deleted`. -/
def deletedOf (a : Nat) : Bool := ((s.segs a).map Segment.deleted).getD false

/-- `a.data[i]`. -/
def slot (a i : Nat) : Nat := ((s.segs a).bind fun sg => sg.data[i]?).getD 0

/-- `*p`: what the box at `p` holds. -/
def boxAt (p : Nat) : Option V := (s.boxes p).getD none

/-- Apply `f` to the segment at `a`, if one was allocated there. -/
def modifySeg (a : Nat) (f : Segment → Segment) : Shared V :=
  { s with segs := store s.segs a ((s.segs a).map f) }

/-- Store `p` into slot `i` of the segment at `a`. -/
def setSlot (a i p : Nat) : Shared V := s.modifySeg a fun sg => { sg with data := sg.data.set i p }

/-- Store `n` into `a.next` and record the link. -/
def linkNext (a n : Nat) : Shared V :=
  { s.modifySeg a (fun sg => { sg with next := n }) with
    hist := { s.hist with chain := s.hist.chain ++ [n] } }

/-- `a.deleted.store(true)`. -/
def setDeleted (a : Nat) : Shared V := s.modifySeg a fun sg => { sg with deleted := true }

/-- `tail.compare_exchange(old, new)`. -/
def casTail (old new : Nat) : Shared V := if s.tail = old then { s with tail := new } else s

/-- `ptr::replace(p, None)`. -/
def replaceBox (p : Nat) : Shared V := { s with boxes := store s.boxes p (some none) }

/-- `Box::into_raw(Box::new(content))`: a box at the fresh address `s.bound`. -/
def newBox (content : Option V) : Shared V :=
  { s with boxes := store s.boxes s.bound (some content), bound := s.bound + 1 }

/-- The address `newSegment` gives the segment: after its `k` sentinels. -/
def freshSeg : Nat := s.bound + s.k

/-- `Box::into_raw(Box::new(Segment::new(k)))`: `k` sentinels at the fresh addresses
    `s.bound, ..., s.bound + k - 1`, then the segment at `s.freshSeg`. -/
def newSegment : Shared V :=
  { s with boxes := fun p => if s.bound ≤ p ∧ p < s.freshSeg then some none else s.boxes p,
           segs := store s.segs s.freshSeg (some ⟨List.range' s.bound s.k, 0, false⟩),
           bound := s.freshSeg + 1 }

/-- The outcome of `rng.shuffle(vals)`: any order of the `k` slots. -/
def shuffle (c : Choice) : List Nat :=
  if c.order.isPerm (List.range s.k) then c.order else List.range s.k

/-- Record that a dequeue took the item box `p`. -/
def noteTaken (p : Nat) : Shared V := { s with hist := { s.hist with taken := s.hist.taken ++ [p] } }

/-- `enqueue(v)` is invoked: its item is boxed (line 56) at a fresh address, `s.bound`. -/
def invokeEnqueue (v : V) : Shared V :=
  { s.newBox (some v) with
    hist := { s.hist with invokedAt := store s.hist.invokedAt s.bound (some s.hist.clock),
                          invTail := store s.hist.invTail s.bound s.tail } }

/-- `enqueue` of `item` returns (line 59) after `commit` returned `true`. -/
def enqueueReturn (item : Nat) : Shared V :=
  { s with hist := { s.hist with returnedAt := store s.hist.returnedAt item (some s.hist.clock),
                                 retTail := store s.hist.retTail item s.tail } }

/-- Advance the clock past an action. -/
def tick : Shared V := { s with hist := { s.hist with clock := s.hist.clock + 1 } }

/-! ## What the memory operations change -/

theorem modifySeg_segs (a : Nat) (f : Segment → Segment) (x : Nat) :
    (s.modifySeg a f).segs x = if x = a then (s.segs a).map f else s.segs x := rfl

@[simp] theorem modifySeg_isSome (a : Nat) (f : Segment → Segment) (x : Nat) :
    ((s.modifySeg a f).segs x).isSome = (s.segs x).isSome := by
  rw [modifySeg_segs]
  split_ifs with h
  · rw [h, Option.isSome_map']
  · rfl

/-- Writing a field other than `next` keeps every `next`. -/
theorem nextOf_modifySeg {f : Segment → Segment} (hf : ∀ sg, (f sg).next = sg.next) (a x : Nat) :
    (s.modifySeg a f).nextOf x = s.nextOf x := by
  simp only [nextOf, modifySeg_segs]
  split_ifs with h
  · subst h; cases s.segs x <;> simp [hf]
  · rfl

theorem nextOf_modifySeg_ne (a : Nat) (f : Segment → Segment) {x : Nat} (h : x ≠ a) :
    (s.modifySeg a f).nextOf x = s.nextOf x := by
  simp only [nextOf, modifySeg_segs, if_neg h]

/-- Writing a field other than `deleted` keeps every `deleted`. -/
theorem deletedOf_modifySeg {f : Segment → Segment} (hf : ∀ sg, (f sg).deleted = sg.deleted)
    (a x : Nat) : (s.modifySeg a f).deletedOf x = s.deletedOf x := by
  simp only [deletedOf, modifySeg_segs]
  split_ifs with h
  · subst h; cases s.segs x <;> simp [hf]
  · rfl

theorem deletedOf_modifySeg_ne (a : Nat) (f : Segment → Segment) {x : Nat} (h : x ≠ a) :
    (s.modifySeg a f).deletedOf x = s.deletedOf x := by
  simp only [deletedOf, modifySeg_segs, if_neg h]

theorem nextOf_linkNext_self {a : Nat} (n : Nat) (ha : (s.segs a).isSome) :
    (s.linkNext a n).nextOf a = n := by
  obtain ⟨sg, hsg⟩ := Option.isSome_iff_exists.mp ha
  simp [linkNext, nextOf, modifySeg_segs, hsg]

@[simp] theorem nextOf_setSlot (a i p x : Nat) : (s.setSlot a i p).nextOf x = s.nextOf x :=
  @nextOf_modifySeg V s (fun sg => { sg with data := sg.data.set i p }) (fun _ => rfl) a x

@[simp] theorem deletedOf_setSlot (a i p x : Nat) : (s.setSlot a i p).deletedOf x = s.deletedOf x :=
  @deletedOf_modifySeg V s (fun sg => { sg with data := sg.data.set i p }) (fun _ => rfl) a x

@[simp] theorem setSlot_isSome (a i p x : Nat) : ((s.setSlot a i p).segs x).isSome = (s.segs x).isSome :=
  modifySeg_isSome ..

@[simp] theorem nextOf_setDeleted (a x : Nat) : (s.setDeleted a).nextOf x = s.nextOf x :=
  @nextOf_modifySeg V s (fun sg => { sg with deleted := true }) (fun _ => rfl) a x

@[simp] theorem setDeleted_isSome (a x : Nat) : ((s.setDeleted a).segs x).isSome = (s.segs x).isSome :=
  modifySeg_isSome ..

@[simp] theorem deletedOf_linkNext (a n x : Nat) : (s.linkNext a n).deletedOf x = s.deletedOf x :=
  @deletedOf_modifySeg V s (fun sg => { sg with next := n }) (fun _ => rfl) a x

@[simp] theorem linkNext_isSome (a n x : Nat) : ((s.linkNext a n).segs x).isSome = (s.segs x).isSome :=
  modifySeg_isSome s a _ x

theorem nextOf_linkNext_ne {a x : Nat} (n : Nat) (h : x ≠ a) : (s.linkNext a n).nextOf x = s.nextOf x :=
  nextOf_modifySeg_ne s a _ h

theorem nextOf_newSegment_ne {x : Nat} (h : x ≠ s.freshSeg) : s.newSegment.nextOf x = s.nextOf x := by
  simp only [nextOf, newSegment, store_ne _ h]

theorem deletedOf_newSegment_ne {x : Nat} (h : x ≠ s.freshSeg) :
    s.newSegment.deletedOf x = s.deletedOf x := by
  simp only [deletedOf, newSegment, store_ne _ h]

/-! ## Calls -/

/-- One access of `advance_tail`: the memory after it, and the next access, or `none` once the
    call returns. -/
def advanceTail : TailPc → Shared V × Option TailPc
  | .loadTail old => (s, if s.tail = old then some (.loadNext old) else none)
  | .loadNext old => (s, some (.recheck old (s.nextOf old)))
  | .recheck old next =>
    if old = s.tail then
      if next = 0 then (s.newSegment, some (.link old s.freshSeg)) else (s, some (.swing old next))
    else (s, none)
  | .link old new => if s.nextOf old = 0 then (s.linkNext old new, some (.swingNew old new)) else (s, none)
  | .swingNew old new => (s.casTail old new, none)
  | .swing old next => (s.casTail old next, none)

/-- One access inside `enqueue` of the box `item`: the memory after it, and the thread. -/
def enqStep (item : Nat) (c : Choice) : EnqPc → Shared V × Thread V
  | .loadTail => (s, .enqueue item (.checkTail s.tail))
  | .checkTail tl =>
    if tl = s.tail then (s, .enqueue item (EnqPc.scanNext tl (s.shuffle c))) else (s, .enqueue item .loadTail)
  | .scan tl i rest => (s, .enqueue item (.scanRead tl i (s.slot tl i) rest))
  | .scanRead tl i p rest =>
    match s.boxAt p with
    | some _ => (s, .enqueue item (EnqPc.scanNext tl rest))
    | none => (s, .enqueue item (.recheck tl i p))
  | .recheck tl i p => if tl = s.tail then (s, .enqueue item (.cas tl i p)) else (s, .enqueue item .loadTail)
  | .cas tl i p =>
    if s.slot tl i = p ∧ c.spurious = false then (s.setSlot tl i item, .enqueue item (.commitLoad tl i))
    else (s, .enqueue item .loadTail)
  | .commitLoad tl i =>
    if s.slot tl i = item then (s, .enqueue item (.commitHead tl i)) else (s.enqueueReturn item, .enqueued)
  | .commitHead tl i => (s.newBox none, .enqueue item (.commitDeleted tl i s.head s.bound))
  | .commitDeleted tl i h nn =>
    if s.deletedOf tl then (s, .enqueue item (.commitUndo tl i nn))
    else if h = tl then (s, .enqueue item (.commitSelf tl i h nn))
    else (s, .enqueue item (.commitDeleted2 tl i nn))
  | .commitSelf tl i h nn =>
    if s.head = h then (s.enqueueReturn item, .enqueued) else (s, .enqueue item (.commitUndo tl i nn))
  | .commitDeleted2 tl i nn =>
    if s.deletedOf tl then (s, .enqueue item (.commitUndo tl i nn)) else (s.enqueueReturn item, .enqueued)
  | .commitUndo tl i nn =>
    if s.slot tl i = item then (s.setSlot tl i nn, .enqueue item .loadTail)
    else (s.enqueueReturn item, .enqueued)
  | .advanceTail pc =>
    match s.advanceTail pc with
    | (s', some pc') => (s', .enqueue item (.advanceTail pc'))
    | (s', none) => (s', .enqueue item .loadTail)

/-- One access inside `dequeue`: the memory after it, and the thread. -/
def deqStep (c : Choice) : DeqPc → Shared V × Thread V
  | .loadHead => (s, .dequeue (.checkHead s.head))
  | .checkHead h =>
    if h = s.head then (s, .dequeue (DeqPc.scanNext h (s.shuffle c))) else (s, .dequeue .loadHead)
  | .scan h i rest => (s, .dequeue (.scanRead h i (s.slot h i) rest))
  | .scanRead h i p rest =>
    match s.boxAt p with
    | some _ => (s, .dequeue (.loadTail h (some (i, p))))
    | none => (s, .dequeue (DeqPc.scanNext h rest))
  | .loadTail h found => (s, .dequeue (.checkHead2 h s.tail found))
  | .checkHead2 h tl found =>
    if h = s.head then
      match found with
      | some (i, p) =>
        if h = tl then (s, .dequeue (.advanceTail h i p (.loadTail tl))) else (s, .dequeue (.cas h i p))
      | none => (s, .dequeue (.loadNext h))
    else (s, .dequeue .loadHead)
  | .advanceTail h i p pc =>
    match s.advanceTail pc with
    | (s', some pc') => (s', .dequeue (.advanceTail h i p pc'))
    | (s', none) => (s', .dequeue (.cas h i p))
  | .cas h i p =>
    if s.slot h i = p then (((s.newBox none).setSlot h i s.bound).noteTaken p, .dequeue (.take p))
    else (s.newBox none, .dequeue .loadHead)
  | .take p => (s.replaceBox p, .dequeued (s.boxAt p))
  | .loadNext h => if s.nextOf h = 0 then (s, .dequeued none) else (s, .dequeue (.headLoad h))
  | .headLoad h => if s.head = h then (s, .dequeue (.headLoadTail h)) else (s, .dequeue .loadHead)
  | .headLoadTail h => (s, .dequeue (.headTailNext h s.tail))
  | .headTailNext h tl => (s, .dequeue (.headNext h tl (s.nextOf tl)))
  | .headNext h tl tn => (s, .dequeue (.headRecheck h tl tn (s.nextOf h)))
  | .headRecheck h tl tn hn =>
    if h = s.head then
      if tl = h then
        if tn = 0 then (s, .dequeue .loadHead) else (s, .dequeue (.headCheckTail h hn tl tn))
      else (s, .dequeue (.headSwing h hn))
    else (s, .dequeue .loadHead)
  | .headCheckTail h hn tl tn =>
    if tl = s.tail then (s, .dequeue (.headSwingTail h hn tl tn)) else (s, .dequeue (.headSwing h hn))
  | .headSwingTail h hn tl tn => (s.casTail tl tn, .dequeue (.headSwing h hn))
  | .headSwing h hn =>
    if s.head = h then ({ s with head := hn }, .dequeue (.headDelete h)) else (s, .dequeue .loadHead)
  | .headDelete h => (s.setDeleted h, .dequeue .loadHead)

/-- The empty heap before `SegQueueOld::new`. -/
def empty (k : Nat) : Shared V :=
  ⟨k, 0, 0, fun _ => none, fun _ => none, 1, ⟨0, [], [], fun _ => none, fun _ => none, fun _ => 0, fun _ => 0⟩⟩

end Shared

/-- A thread not inside a call. -/
def Thread.Ready {V : Type} : Thread V → Bool
  | .enqueue .. | .dequeue _ => false
  | _ => true

/-- The queue and the threads calling it. -/
structure QState (V : Type) where
  sh : Shared V
  threads : Nat → Thread V

/-- What the environment does next: a thread invokes a call, or a thread takes a step. -/
inductive Action (V : Type) where
  | enqueue (t : Nat) (v : V)
  | dequeue (t : Nat)
  | step (t : Nat) (c : Choice)
  deriving DecidableEq, Repr

/-- The thread an action is about. -/
def Action.thread {V : Type} : Action V → Nat
  | .enqueue t _ | .dequeue t | .step t _ => t

namespace QState

variable {V : Type}

/-- Thread `t`'s next access, if it is inside a call. -/
def step (s : QState V) (t : Nat) (c : Choice) : Option (Shared V × Thread V) :=
  match s.threads t with
  | .enqueue item pc => some (s.sh.enqStep item c pc)
  | .dequeue pc => some (s.sh.deqStep c pc)
  | _ => none

/-- One action, with the clock advanced past it; `none` when it is not enabled. -/
def exec (s : QState V) : Action V → Option (QState V)
  | .enqueue t v =>
    if (s.threads t).Ready then
      some ⟨(s.sh.invokeEnqueue v).tick, store s.threads t (.enqueue s.sh.bound .loadTail)⟩
    else none
  | .dequeue t =>
    if (s.threads t).Ready then some ⟨s.sh.tick, store s.threads t (.dequeue .loadHead)⟩
    else none
  | .step t c =>
    match s.step t c with
    | some (sh, th) => some ⟨sh.tick, store s.threads t th⟩
    | none => none

def run (s : QState V) : List (Action V) → Option (QState V)
  | [] => some s
  | a :: as => (s.exec a).bind fun s' => s'.run as

theorem run_append (s : QState V) (as bs : List (Action V)) :
    s.run (as ++ bs) = (s.run as).bind fun s' => s'.run bs := by
  induction as generalizing s with
  | nil => rfl
  | cons a as ih =>
    show ((s.exec a).bind fun s' => s'.run (as ++ bs)) = _
    simp only [run, ih, Option.bind_assoc]

/-- An action leaves every other thread as it was. -/
theorem exec_threads_ne {s s' : QState V} {a : Action V} (h : s.exec a = some s') {t : Nat}
    (ht : t ≠ a.thread) : s'.threads t = s.threads t := by
  cases a with
  | enqueue u v | dequeue u =>
    simp only [exec] at h
    split_ifs at h
    cases h
    exact store_ne _ ht
  | step u c =>
    simp only [exec] at h
    cases hr : s.step u c with
    | none => simp only [hr] at h; cases h
    | some r =>
      simp only [hr, Option.some.injEq] at h
      subst h
      exact store_ne _ ht

/-- A run that does not block ends in the state it reaches. -/
theorem run_eq_getD {s : QState V} {as : List (Action V)} (h : (s.run as).isSome) (d : QState V) :
    s.run as = some ((s.run as).getD d) := by
  cases hr : s.run as <;> simp_all

end QState

/-- `SegQueueOld::new(k)`: one segment, both `head` and `tail`, and no thread in a call. -/
def SegQueueOld.new (V : Type) (k : Nat) : QState V :=
  let e : Shared V := Shared.empty k
  ⟨{ e.newSegment with head := e.freshSeg, tail := e.freshSeg,
                       hist := { e.hist with chain := [e.freshSeg] } }, fun _ => .idle⟩

/-- The states some run from `SegQueueOld::new(k)` reaches. -/
def Reachable {V : Type} (k : Nat) (s : QState V) : Prop :=
  ∃ as, (SegQueueOld.new V k).run as = some s

namespace Reachable

variable {V : Type} {k : Nat}

theorem exec {s s' : QState V} {a : Action V} (h : Reachable k s) (ha : s.exec a = some s') :
    Reachable k s' :=
  let ⟨as, hr⟩ := h
  ⟨as ++ [a], by rw [QState.run_append, hr]; simp [QState.run, ha]⟩

/-- The state a run that does not block reaches. -/
theorem of_isSome {as : List (Action V)} (h : ((SegQueueOld.new V k).run as).isSome) :
    Reachable k (((SegQueueOld.new V k).run as).getD (SegQueueOld.new V k)) :=
  ⟨as, QState.run_eq_getD h _⟩

/-- A run from `SegQueueOld::new(k)` that does not block and ends in a state where `p` holds. -/
theorem of_run {as : List (Action V)} {p : QState V → Bool}
    (h : ((SegQueueOld.new V k).run as).map p = some true) : ∃ s, Reachable k s ∧ p s = true := by
  cases hr : (SegQueueOld.new V k).run as with
  | none => simp [hr] at h
  | some s =>
    simp only [hr, Option.map_some', Option.some.injEq] at h
    exact ⟨s, ⟨as, hr⟩, h⟩

/-- A property of `SegQueueOld::new(k)` that every action from a reachable state keeps holds in
    every reachable state. -/
theorem induction {P : QState V → Prop} (h0 : P (SegQueueOld.new V k))
    (hstep : ∀ s s' a, Reachable k s → P s → s.exec a = some s' → P s') {s : QState V}
    (h : Reachable k s) : P s := by
  obtain ⟨as, h⟩ := h
  suffices ∀ as s₀ s, Reachable k s₀ → P s₀ → s₀.run as = some s → P s from
    this as _ s ⟨[], rfl⟩ h0 h
  intro as
  induction as with
  | nil => intro s₀ s _ hp h; cases h; exact hp
  | cons a as ih =>
    intro s₀ s hr hp h
    obtain ⟨s₁, h₁, h₂⟩ := Option.bind_eq_some.mp h
    exact ih s₁ s (hr.exec h₁) (hstep s₀ s₁ a hr hp h₁) h₂

end Reachable

end Rustcurrent.SegQueue
