import Rustcurrent.HashMap.AtomicMarkable
import Mathlib.Logic.Function.Basic
import Mathlib.Data.Nat.Log

/-!
# The hash trie as a machine of `insert` threads

`hash_map/hash_map.rs`. The map's shared state is its `head` vector of cells and the heap of
nodes; each thread runs at most one `insert` at a time. An `insert` call is a frame of the
source's locals together with the program point of its next shared access. Every atomic load,
compare-exchange, dereference, allocation and free is one step, so that any other thread may run
between two of them.

The heap is physical memory: `mem` holds what was last written at an address and `live` says
whether the address is currently allocated. Freeing keeps the contents; an allocation may take
any unallocated, 4-byte-aligned, non-null address, a freed one included. A dereference of an
address nothing was ever written to, and a double free, end the thread as undefined behaviour.

`HPBRManager::protect` is the only use the map makes of its hazard manager; since the map never
retires a node, protection has no effect on what is freed and the model leaves it out.
-/

namespace Rustcurrent.HashMap

/-- `HEAD_SIZE`. -/
def headSize : Nat := 64

/-- `KEY_SIZE`. -/
def keySize : Nat := 64

/-- `MAX_FAILURES`. -/
def maxFailures : Nat := 10

/-- The map's `shift_step`, which `new` sets to `floor(log2(HEAD_SIZE))`
    (`shiftStep_eq_log2`). -/
def shiftStep : Nat := 6

theorem shiftStep_eq_log2 : shiftStep = Nat.log2 headSize := by
  rw [Nat.log2_eq_log_two]
  exact (Nat.log_pow (by decide) 6).symm

/-- What `bucket` refers to: `self.head`, or the `array` of the `ArrayNode` at an address. -/
inductive Bucket where
  | head
  | array (addr : Word)
  deriving DecidableEq, Repr

/-- The call site of `expand_map` in `insert`, which decides what happens to its result. -/
inductive ExpandRet where
  /-- Line 100: `fail_count > MAX_FAILURES`. -/
  | maxFailures
  /-- Line 111: the loaded `node_ptr` is marked. -/
  | marked (nodePtr : Word)
  /-- Line 141: a leaf with another hash sits in the cell. -/
  | collided
  deriving DecidableEq, Repr

/-- The call site of `try_insert`: inside the level loop (line 104) or after it (line 168). -/
inductive TryRet where
  | inLoop
  | lastLevel
  deriving DecidableEq, Repr

/-- The program point of an `insert` call: the shared access it performs next. The payload of
    each point is the set of locals the source has live there. -/
inductive Pc where
  /-- Line 96: `node = bucket[pos].get_ptr()` (after computing `pos`, line 93). -/
  | loadNode
  /-- Line 126: `node2 = bucket[pos].get_ptr()`. -/
  | recheck (nodePtr : Word)
  /-- Line 133: `match &*node_ptr` on an unmarked, untagged word. -/
  | readLeaf (nodePtr : Word)
  /-- Lines 116 and 143: `match &*w` on a word tagged as an array node; `line` is the line of
      the `panic!` for a data node. -/
  | descend (w : Word) (line : Nat)
  /-- Line 165: the load after the level loop. -/
  | lastLoad
  /-- `expand_map` line 52. -/
  | expandLoad (ret : ExpandRet)
  /-- `expand_map` line 57. -/
  | expandReload (node : Word) (ret : ExpandRet)
  /-- `expand_map` line 64: read the leaf's hash. -/
  | expandRead (node : Word) (ret : ExpandRet)
  /-- `expand_map` line 71: box the fresh `ArrayNode` with `node` stored at `newPos`. -/
  | expandAlloc (node : Word) (newPos : Nat) (ret : ExpandRet)
  /-- `expand_map` line 72: `compare_exchange_weak(node, array_node_ptr)`. -/
  | expandCas (node arr : Word) (ret : ExpandRet)
  /-- `expand_map` line 77: `Box::from_raw(array_node_ptr)` after a failed exchange. -/
  | expandDrop (arr : Word) (ret : ExpandRet)
  /-- `expand_map` line 78. -/
  | expandLoadAfter (ret : ExpandRet)
  /-- `try_insert` line 181: box the new leaf. -/
  | tryAlloc (ret : TryRet)
  /-- `try_insert` line 183: `compare_exchange_weak(null, data_node_ptr)`. -/
  | tryCas (ptr : Word) (ret : TryRet)
  /-- `try_insert` lines 187-190: take the value back and free the unpublished leaf. -/
  | tryTake (ptr : Word) (ret : TryRet)
  deriving DecidableEq, Repr

/-- The locals of an `insert` call. -/
structure Frame (K V : Type) where
  key : K
  value : V
  hash : BitVec 64
  bucket : Bucket
  r : Nat
  pos : Nat
  failCount : Nat
  node : Option Word
  pc : Pc
  /-- Ghost: how many times control has reached the head of the outer `while` (line 92) or of
      the inner `loop` (line 99). -/
  iterations : Nat
  deriving DecidableEq, Repr

/-- `Result<(), (K, V)>`, what `insert` returns. -/
inductive InsertResult (K V : Type) where
  | ok
  | err (key : K) (value : V)
  deriving DecidableEq, Repr

/-- What a thread is doing. -/
inductive Status (K V : Type) where
  | idle
  | running (f : Frame K V)
  | returned (r : InsertResult K V)
  /-- A `panic!` or an `unwrap` of `None`, at a line of `hash_map.rs`. -/
  | panicked (line : Nat)
  /-- A dereference of memory never written, or a double free. -/
  | ub
  deriving DecidableEq, Repr

/-- The nondeterminism of one step: the address an allocation returns, and whether a
    `compare_exchange_weak` fails spuriously. Steps that neither allocate nor exchange ignore it. -/
structure Choice where
  addr : Word
  spurious : Bool
  deriving DecidableEq, Repr

/-- The shared state: the map's hasher and `head`, the heap, and the threads. -/
structure HState (K V : Type) where
  /-- `self.hash`: the hasher chosen by `new`. -/
  hasher : K → BitVec 64
  head : List Word
  mem : Word → Option (Node V)
  live : Word → Bool
  threads : Nat → Status K V

variable {K V : Type}

namespace HState

/-- `HashMap::new()`: `HEAD_SIZE` empty cells and an empty heap. -/
def new (hasher : K → BitVec 64) : HState K V :=
  ⟨hasher, List.replicate headSize 0, fun _ => none, fun _ => false, fun _ => .idle⟩

/-- The word in cell `pos` of `bucket`, if `bucket` is a vector of the state. -/
def cell (s : HState K V) : Bucket → Nat → Option Word
  | .head, pos => s.head[pos]?
  | .array a, pos =>
    match s.mem a with
    | some (.array cells) => cells[pos]?
    | _ => none

/-- `bucket.len()`. -/
def bucketLen (s : HState K V) : Bucket → Nat
  | .head => s.head.length
  | .array a =>
    match s.mem a with
    | some (.array cells) => cells.length
    | _ => 0

/-- Store `w` in cell `pos` of `bucket`. -/
def setCell (s : HState K V) (b : Bucket) (pos : Nat) (w : Word) : HState K V :=
  match b with
  | .head => { s with head := s.head.set pos w }
  | .array a =>
    match s.mem a with
    | some (.array cells) => { s with mem := Function.update s.mem a (some (.array (cells.set pos w))) }
    | _ => s

def setThread (s : HState K V) (t : Nat) (st : Status K V) : HState K V :=
  { s with threads := Function.update s.threads t st }

/-- `Box::into_raw(Box::new(n))` at address `a`. -/
def alloc (s : HState K V) (a : Word) (n : Node V) : HState K V :=
  { s with mem := Function.update s.mem a (some n), live := Function.update s.live a true }

/-- An address the allocator may return. -/
def CanAlloc (s : HState K V) (a : Word) : Prop := a ≠ 0 ∧ Untagged a ∧ s.live a = false

instance (s : HState K V) (a : Word) : Decidable (s.CanAlloc a) :=
  inferInstanceAs (Decidable (_ ∧ _ ∧ _))

def write (s : HState K V) (a : Word) (n : Node V) : HState K V :=
  { s with mem := Function.update s.mem a (some n) }

def free (s : HState K V) (a : Word) : HState K V :=
  { s with live := Function.update s.live a false }

@[simp] theorem setThread_head (s : HState K V) t st : (s.setThread t st).head = s.head := rfl
@[simp] theorem setThread_mem (s : HState K V) t st : (s.setThread t st).mem = s.mem := rfl
@[simp] theorem setThread_live (s : HState K V) t st : (s.setThread t st).live = s.live := rfl
@[simp] theorem setThread_hasher (s : HState K V) t st : (s.setThread t st).hasher = s.hasher := rfl
@[simp] theorem setThread_threads (s : HState K V) t st :
    (s.setThread t st).threads = Function.update s.threads t st := rfl
@[simp] theorem alloc_head (s : HState K V) a n : (s.alloc a n).head = s.head := rfl
@[simp] theorem alloc_mem (s : HState K V) a n :
    (s.alloc a n).mem = Function.update s.mem a (some n) := rfl
@[simp] theorem alloc_live (s : HState K V) a n :
    (s.alloc a n).live = Function.update s.live a true := rfl
@[simp] theorem alloc_threads (s : HState K V) a n : (s.alloc a n).threads = s.threads := rfl
@[simp] theorem alloc_hasher (s : HState K V) a n : (s.alloc a n).hasher = s.hasher := rfl
@[simp] theorem write_head (s : HState K V) a n : (s.write a n).head = s.head := rfl
@[simp] theorem write_mem (s : HState K V) a n :
    (s.write a n).mem = Function.update s.mem a (some n) := rfl
@[simp] theorem write_live (s : HState K V) a n : (s.write a n).live = s.live := rfl
@[simp] theorem write_threads (s : HState K V) a n : (s.write a n).threads = s.threads := rfl
@[simp] theorem write_hasher (s : HState K V) a n : (s.write a n).hasher = s.hasher := rfl
@[simp] theorem free_head (s : HState K V) a : (s.free a).head = s.head := rfl
@[simp] theorem free_mem (s : HState K V) a : (s.free a).mem = s.mem := rfl
@[simp] theorem free_live (s : HState K V) a :
    (s.free a).live = Function.update s.live a false := rfl
@[simp] theorem free_threads (s : HState K V) a : (s.free a).threads = s.threads := rfl
@[simp] theorem free_hasher (s : HState K V) a : (s.free a).hasher = s.hasher := rfl
@[simp] theorem setCell_threads (s : HState K V) b pos w : (s.setCell b pos w).threads = s.threads := by
  unfold setCell; split <;> [rfl; split <;> rfl]
@[simp] theorem setCell_live (s : HState K V) b pos w : (s.setCell b pos w).live = s.live := by
  unfold setCell; split <;> [rfl; split <;> rfl]
@[simp] theorem setCell_hasher (s : HState K V) b pos w : (s.setCell b pos w).hasher = s.hasher := by
  unfold setCell; split <;> [rfl; split <;> rfl]
@[simp] theorem setCell_head_head (s : HState K V) pos w :
    (s.setCell .head pos w).head = s.head.set pos w := rfl
@[simp] theorem setCell_head_mem (s : HState K V) pos w : (s.setCell .head pos w).mem = s.mem := rfl

end HState

/-- `AtomicMarkablePtr::get_ptr`. -/
def getPtr (w : Word) : Option Word := if w = 0 then none else some w

/-- `hash as usize & (len - 1)`. -/
def posOf (hash : BitVec 64) (len : Nat) : Nat := (hash &&& BitVec.ofNat 64 (len - 1)).toNat

/-- `AtomicMarkablePtr::drop` of a cell holding `w`: the node at `unmark(unmark_array_node(w))`
    is dropped by `drop` unless that word is null. -/
def dropCell (drop : HState K V → Word → Option (HState K V)) (s : HState K V) (w : Word) :
    Option (HState K V) :=
  if unmark (unmarkArrayNode w) = 0 then some s else drop s (unmark (unmarkArrayNode w))

/-- `Box::from_raw(a)` and the drop glue after it. A data leaf is freed; an `ArrayNode` first
    drops its cells in order and is freed last. Freeing an unallocated address, or recursing
    deeper than `fuel`, is undefined behaviour (`none`). -/
def dropNode : Nat → HState K V → Word → Option (HState K V)
  | 0, _, _ => none
  | fuel + 1, s, a =>
    if s.live a then
      match s.mem a with
      | some (.data _) => some (s.free a)
      | some (.array cells) => (cells.foldlM (dropCell (dropNode fuel)) s).map (·.free a)
      | none => none
    else none

namespace Frame

/-- Line 92: test of the outer `while`, entering the next level or the last-level load. -/
def whileTop (f : Frame K V) : Frame K V :=
  let f := { f with iterations := f.iterations + 1 }
  if f.r < keySize - shiftStep then { f with pc := .loadNode } else { f with pc := .lastLoad }

/-- Line 113: descend if the loaded word is tagged as an array node, else protect and re-read. -/
def afterMarked (nodePtr : Word) (f : Frame K V) : Frame K V :=
  if isArrayNode nodePtr then { f with pc := .descend nodePtr 117 } else { f with pc := .recheck nodePtr }

/-- Line 102: `match node`. -/
def matchNode (f : Frame K V) : Frame K V :=
  match f.node with
  | none => { f with pc := .tryAlloc .inLoop }
  | some p => if isMarked p then { f with pc := .expandLoad (.marked p) } else afterMarked p f

/-- Line 99: head of the inner `loop`. -/
def loopTop (f : Frame K V) : Frame K V :=
  let f := { f with iterations := f.iterations + 1 }
  if f.failCount > maxFailures then { f with pc := .expandLoad .maxFailures } else matchNode f

/-- What `insert` does with the word `expand_map` returns, by call site. -/
def expandReturn (w : Word) (f : Frame K V) : ExpandRet → Frame K V
  | .maxFailures => matchNode { f with node := some w }
  | .marked p => afterMarked p { f with node := some w }
  | .collided =>
    if isArrayNode w then { f with node := some w, pc := .descend w 148 }
    else loopTop { f with node := some w, failCount := f.failCount + 1 }

/-- What `insert` does with the result of `try_insert`, by call site. -/
def tryReturn (f : Frame K V) : TryRet → Except V Unit → Status K V
  | .inLoop, .ok () => .returned .ok
  | .inLoop, .error v => .running (loopTop { f with value := v })
  | .lastLevel, .ok () => .returned .ok
  | .lastLevel, .error v => .returned (.err f.key v)

/-- The frame of a fresh `insert(key, value)` call. -/
def start (key : K) (value : V) (hash : BitVec 64) : Frame K V :=
  whileTop ⟨key, value, hash, .head, 0, 0, 0, none, .loadNode, 0⟩

end Frame

namespace HState

/-- The thread continues at frame `f`. -/
def resume (s : HState K V) (t : Nat) (f : Frame K V) : HState K V := s.setThread t (.running f)

@[simp] theorem resume_eq (s : HState K V) t f : s.resume t f = s.setThread t (.running f) := rfl

/-- One step of the `insert` call `f` of thread `t`; `none` when the choice `c` offers an address
    the allocator cannot return. -/
def stepFrame (s : HState K V) (t : Nat) (f : Frame K V) (c : Choice) : Option (HState K V) :=
  match f.pc with
  | .loadNode =>
    let pos := posOf f.hash (s.bucketLen f.bucket)
    match s.cell f.bucket pos with
    | none => some (s.setThread t .ub)
    | some w => some (s.resume t (Frame.loopTop { f with pos := pos, failCount := 0, node := getPtr w }))
  | .recheck p =>
    match s.cell f.bucket f.pos with
    | none => some (s.setThread t .ub)
    | some w =>
      if getPtr w = some p then some (s.resume t { f with pc := .readLeaf p })
      else some (s.resume t (Frame.loopTop { f with node := getPtr w, failCount := f.failCount + 1 }))
  | .readLeaf p =>
    match s.mem p with
    | some (.data d) =>
      if d.key = f.hash then some (s.setThread t (.returned (.err f.key f.value)))
      else some (s.resume t { f with pc := .expandLoad .collided })
    | some (.array _) => some (s.setThread t (.panicked 134))
    | none => some (s.setThread t .ub)
  | .descend w line =>
    match s.mem w with
    | some (.array _) => some (s.resume t (Frame.whileTop { f with bucket := .array w, r := f.r + shiftStep }))
    | some (.data _) => some (s.setThread t (.panicked line))
    | none => some (s.setThread t .ub)
  | .lastLoad =>
    let pos := posOf f.hash headSize
    match s.cell f.bucket pos with
    | none => some (s.setThread t .ub)
    | some w =>
      match getPtr w with
      | none => some (s.resume t { f with pos := pos, pc := .tryAlloc .lastLevel })
      | some _ => some (s.setThread t (.returned (.err f.key f.value)))
  | .expandLoad ret =>
    match s.cell f.bucket f.pos with
    | none => some (s.setThread t .ub)
    | some w =>
      match getPtr w with
      | none => some (s.setThread t (.panicked 52))
      | some node =>
        if isArrayNode node then some (s.resume t (Frame.expandReturn node f ret))
        else some (s.resume t { f with pc := .expandReload node ret })
  | .expandReload node ret =>
    match s.cell f.bucket f.pos with
    | none => some (s.setThread t .ub)
    | some w =>
      match getPtr w with
      | none => some (s.setThread t (.panicked 57))
      | some node2 =>
        if node = node2 then some (s.resume t { f with pc := .expandRead node ret })
        else some (s.resume t (Frame.expandReturn node2 f ret))
  | .expandRead node ret =>
    match s.mem node with
    | some (.data d) =>
      if 64 ≤ f.r + shiftStep then some (s.setThread t (.panicked 68))
      else
        let newPos := ((d.key >>> (f.r + shiftStep)) &&& BitVec.ofNat 64 (headSize - 1)).toNat
        some (s.resume t { f with pc := .expandAlloc node newPos ret })
    | some (.array _) => some (s.setThread t (.panicked 66))
    | none => some (s.setThread t .ub)
  | .expandAlloc node newPos ret =>
    if s.CanAlloc c.addr then
      some ((s.alloc c.addr (.array ((List.replicate headSize 0).set newPos node))).resume t
        { f with pc := .expandCas node c.addr ret })
    else none
  | .expandCas node arr ret =>
    match s.cell f.bucket f.pos with
    | none => some (s.setThread t .ub)
    | some w =>
      if w = node ∧ c.spurious = false then
        some ((s.setCell f.bucket f.pos arr).resume t (Frame.expandReturn arr f ret))
      else some (s.resume t { f with pc := .expandDrop arr ret })
  | .expandDrop arr ret =>
    match dropNode keySize s arr with
    | none => some (s.setThread t .ub)
    | some s' => some (s'.resume t { f with pc := .expandLoadAfter ret })
  | .expandLoadAfter ret =>
    match s.cell f.bucket f.pos with
    | none => some (s.setThread t .ub)
    | some w =>
      match getPtr w with
      | none => some (s.setThread t (.panicked 78))
      | some w' => some (s.resume t (Frame.expandReturn w' f ret))
  | .tryAlloc ret =>
    if s.CanAlloc c.addr then
      some ((s.alloc c.addr (.data ⟨f.hash, some f.value⟩)).resume t { f with pc := .tryCas c.addr ret })
    else none
  | .tryCas p ret =>
    match s.cell f.bucket f.pos with
    | none => some (s.setThread t .ub)
    | some w =>
      if w = 0 ∧ c.spurious = false then
        some ((s.setCell f.bucket f.pos p).setThread t (Frame.tryReturn f ret (.ok ())))
      else some (s.resume t { f with pc := .tryTake p ret })
  | .tryTake p ret =>
    match s.mem p with
    | some (.data d) =>
      match d.value with
      | some v => some (((s.write p (.data DataNode.default)).free p).setThread t (Frame.tryReturn f ret (.error v)))
      | none => some ((s.write p (.data DataNode.default)).setThread t (.panicked 189))
    | some (.array _) => some ((s.write p (.data DataNode.default)).setThread t (.panicked 193))
    | none => some (s.setThread t .ub)

end HState

/-- An event of a run: a thread starts `insert(key, value)`, or a running call takes a step. -/
inductive Action (K V : Type) where
  | invoke (t : Nat) (key : K) (value : V)
  | step (t : Nat) (c : Choice)

namespace HState

/-- A thread may start a call when it has none in progress. -/
def Ready : Status K V → Bool
  | .idle | .returned _ => true
  | _ => false

/-- One event; `none` when it is not enabled. -/
def exec (s : HState K V) : Action K V → Option (HState K V)
  | .invoke t key value =>
    if Ready (s.threads t) then some (s.resume t (Frame.start key value (s.hasher key))) else none
  | .step t c =>
    match s.threads t with
    | .running f => s.stepFrame t f c
    | _ => none

/-- A run of events from `s`. -/
def run (s : HState K V) : List (Action K V) → Option (HState K V)
  | [] => some s
  | a :: as => (s.exec a).bind (fun s' => s'.run as)

end HState

theorem HState.run_append (s : HState K V) (as bs : List (Action K V)) :
    s.run (as ++ bs) = (s.run as).bind (fun s' => s'.run bs) := by
  induction as generalizing s with
  | nil => rfl
  | cons a as ih =>
    show ((s.exec a).bind fun s' => s'.run (as ++ bs)) = _
    simp only [HState.run, ih, Option.bind_assoc]

/-- The states some interleaving of `insert` calls on `HashMap::new()` reaches. -/
def Reachable (hasher : K → BitVec 64) (s : HState K V) : Prop :=
  ∃ as, (HState.new hasher).run as = some s

/-- A run from `HashMap::new()` that does not block and ends in a state where `p` holds. -/
theorem Reachable.of_run {hasher : K → BitVec 64} {as : List (Action K V)} {p : HState K V → Bool}
    (h : ((HState.new hasher).run as).map p = some true) : ∃ s, Reachable hasher s ∧ p s = true := by
  cases hr : (HState.new hasher).run as with
  | none => simp [hr] at h
  | some s =>
    simp only [hr, Option.map_some', Option.some.injEq] at h
    exact ⟨s, ⟨as, hr⟩, h⟩

/-! ## Routing -/

/-- Line 68: the cell of the fresh `ArrayNode` in which `expand_map(bucket, pos, shift_amount)`
    stores the displaced leaf of hash `h`. -/
def expandPos (h : BitVec 64) (shiftAmount : Nat) : Nat :=
  ((h >>> (shiftAmount + shiftStep)) &&& BitVec.ofNat 64 (headSize - 1)).toNat

/-- `expand_map` reads the leaf's hash and moves the leaf to cell `expandPos`. -/
theorem HState.stepFrame_expandRead {s : HState K V} {t : Nat} {f : Frame K V} {c : Choice}
    {node : Word} {ret : ExpandRet} {d : DataNode V} (hpc : f.pc = .expandRead node ret)
    (hd : s.mem node = some (.data d)) (hr : f.r + shiftStep < 64) :
    s.stepFrame t f c = some (s.resume t { f with pc := .expandAlloc node (expandPos d.key f.r) ret }) := by
  simp only [HState.stepFrame, hpc, hd, if_neg (Nat.not_le.mpr hr)]
  rfl

/-- `insert` routes by the hash's six low bits on every level (lines 93 and 164). -/
theorem posOf_headSize (h : BitVec 64) : posOf h headSize = h.toNat % 64 := by
  simp only [posOf, headSize, BitVec.toNat_and, BitVec.toNat_ofNat]
  exact Nat.and_pow_two_sub_one_eq_mod h.toNat 6

/-- `expand_map` at depth `r` routes by the six bits above `r + shift_step` (line 68). -/
theorem expandPos_eq (h : BitVec 64) (r : Nat) : expandPos h r = h.toNat / 2 ^ (r + shiftStep) % 64 := by
  simp only [expandPos, headSize, BitVec.toNat_and, BitVec.toNat_ofNat, BitVec.toNat_ushiftRight,
    Nat.shiftRight_eq_div_pow]
  exact Nat.and_pow_two_sub_one_eq_mod _ 6

/-- The two routings disagree: at depth 0 `expand_map` moves the leaf of hash 1 to cell 0 of
    the new level, while `insert` looks for hash 1 in cell 1 of every level. -/
theorem routing_mismatch :
    ¬ ∀ (h : BitVec 64) (r : Nat), r < keySize - shiftStep → posOf h headSize = expandPos h r :=
  fun hall => absurd (hall 1 0 (by decide)) (by rw [posOf_headSize, expandPos_eq]; decide)

end Rustcurrent.HashMap
