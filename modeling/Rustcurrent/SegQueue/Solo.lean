import Rustcurrent.SegQueue.Relaxation

/-!
# One thread alone

The calls of a single thread: thread 0 takes every step. `soloStep` is one of its steps, on the
memory and its own state, with the outcome of the step's choices (the shuffle and a spurious
failure of `compare_exchange_weak`) given by `cs` at the clock, so that every sequence of outcomes
is some `cs`. `Reaches` is any number of such steps, and `Reaches.solo` turns them into actions of
the machine.

Run alone, a call follows a few straight paths, one per branch of the source it takes. The
lemmas of this module are these paths, from the first access of a try to the point where the try
returns or starts again; between the accesses that write memory only the clock moves
(`Shared.ticks`). Each step of a path is cited as one equation of `enqStep`, `deqStep` or
`advanceTail` at the branch it takes.
-/

namespace Rustcurrent.SegQueue

variable {V : Type}

namespace Shared

variable (s : Shared V)

/-- The clock advanced by `n`. -/
def ticks (n : Nat) : Shared V := { s with hist := { s.hist with clock := s.hist.clock + n } }

/-- What `advance_tail(tail)`, run alone while `tail.next` is null, does: a segment is allocated,
    linked behind `tail`, and `tail` is swung to it. -/
def grow : Shared V := { s.newSegment.linkNext s.tail s.freshSeg with tail := s.freshSeg }

theorem ticks_add (m n : Nat) : (s.ticks m).ticks n = s.ticks (m + n) := by
  simp only [ticks, Nat.add_assoc]

theorem tick_tick_ticks (n : Nat) : s.tick.tick.ticks n = s.ticks (n + 2) := by
  simp only [tick, ticks]
  congr 2
  omega

/-- `rng.shuffle(vals)` orders the `k` slots. -/
theorem shuffle_perm (c : Choice) : (s.shuffle c).Perm (List.range s.k) := by
  unfold shuffle
  split_ifs with h
  · exact List.isPerm_iff.mp h
  · exact List.Perm.refl _

variable {s} {b tl h i p : Nat} {rest : List Nat} {c : Choice}

/-! ## One access at the branch it takes -/

theorem enqStep_loadTail : s.enqStep b c .loadTail = (s, .enqueue b (.checkTail s.tail)) := rfl

theorem enqStep_checkTail :
    s.enqStep b c (.checkTail s.tail) = (s, .enqueue b (EnqPc.scanNext s.tail (s.shuffle c))) :=
  if_pos rfl

theorem enqStep_scan : s.enqStep b c (.scan tl i rest) =
    (s, .enqueue b (.scanRead tl i (s.slot tl i) rest)) := rfl

theorem enqStep_scanRead_item (hp : (s.boxAt p).isSome) :
    s.enqStep b c (.scanRead tl i p rest) = (s, .enqueue b (EnqPc.scanNext tl rest)) := by
  obtain ⟨v, hv⟩ := Option.isSome_iff_exists.mp hp
  simp [enqStep, hv]

theorem enqStep_scanRead_empty (hp : s.boxAt p = none) :
    s.enqStep b c (.scanRead tl i p rest) = (s, .enqueue b (.recheck tl i p)) := by
  simp [enqStep, hp]

theorem enqStep_recheck : s.enqStep b c (.recheck s.tail i p) = (s, .enqueue b (.cas s.tail i p)) :=
  if_pos rfl

theorem enqStep_cas (hp : s.slot tl i = p) (hc : c.spurious = false) :
    s.enqStep b c (.cas tl i p) = (s.setSlot tl i b, .enqueue b (.commitLoad tl i)) :=
  if_pos ⟨hp, hc⟩

theorem enqStep_cas_spurious (hc : c.spurious = true) :
    s.enqStep b c (.cas tl i p) = (s, .enqueue b .loadTail) :=
  if_neg fun h => by simp [hc] at h

theorem enqStep_commitLoad (hb : s.slot tl i = b) :
    s.enqStep b c (.commitLoad tl i) = (s, .enqueue b (.commitHead tl i)) :=
  if_pos hb

theorem enqStep_commitHead :
    s.enqStep b c (.commitHead tl i) = (s.newBox none, .enqueue b (.commitDeleted tl i s.head s.bound)) :=
  rfl

theorem enqStep_commitDeleted_self {nn : Nat} (hd : s.deletedOf tl = false) (hh : h = tl) :
    s.enqStep b c (.commitDeleted tl i h nn) = (s, .enqueue b (.commitSelf tl i h nn)) := by
  simp [enqStep, hd, hh]

theorem enqStep_commitDeleted_other {nn : Nat} (hd : s.deletedOf tl = false) (hh : h ≠ tl) :
    s.enqStep b c (.commitDeleted tl i h nn) = (s, .enqueue b (.commitDeleted2 tl i nn)) := by
  simp [enqStep, hd, hh]

theorem enqStep_commitSelf {nn : Nat} :
    s.enqStep b c (.commitSelf tl i s.head nn) = (s.enqueueReturn b, .enqueued) :=
  if_pos rfl

theorem enqStep_commitDeleted2 {nn : Nat} (hd : s.deletedOf tl = false) :
    s.enqStep b c (.commitDeleted2 tl i nn) = (s.enqueueReturn b, .enqueued) := by
  simp [enqStep, hd]

theorem advanceTail_loadTail : s.advanceTail (.loadTail s.tail) = (s, some (.loadNext s.tail)) := by
  simp [advanceTail]

theorem advanceTail_loadNext : s.advanceTail (.loadNext tl) = (s, some (.recheck tl (s.nextOf tl))) :=
  rfl

theorem advanceTail_recheck {next : Nat} (hn : next = 0) :
    s.advanceTail (.recheck s.tail next) = (s.newSegment, some (.link s.tail s.freshSeg)) := by
  simp [advanceTail, hn]

theorem advanceTail_link {n : Nat} (hz : s.nextOf tl = 0) :
    s.advanceTail (.link tl n) = (s.linkNext tl n, some (.swingNew tl n)) :=
  if_pos hz

theorem advanceTail_swingNew {n : Nat} :
    s.advanceTail (.swingNew s.tail n) = ({ s with tail := n }, none) := by
  simp [advanceTail, casTail]

theorem deqStep_loadHead : s.deqStep c .loadHead = (s, .dequeue (.checkHead s.head)) := rfl

theorem deqStep_checkHead :
    s.deqStep c (.checkHead s.head) = (s, .dequeue (DeqPc.scanNext s.head (s.shuffle c))) :=
  if_pos rfl

theorem deqStep_scan : s.deqStep c (.scan h i rest) = (s, .dequeue (.scanRead h i (s.slot h i) rest)) :=
  rfl

theorem deqStep_scanRead_item (hp : (s.boxAt p).isSome) :
    s.deqStep c (.scanRead h i p rest) = (s, .dequeue (.loadTail h (some (i, p)))) := by
  obtain ⟨v, hv⟩ := Option.isSome_iff_exists.mp hp
  simp [deqStep, hv]

theorem deqStep_scanRead_empty (hp : s.boxAt p = none) :
    s.deqStep c (.scanRead h i p rest) = (s, .dequeue (DeqPc.scanNext h rest)) := by
  simp [deqStep, hp]

theorem deqStep_loadTail {found : Option (Nat × Nat)} :
    s.deqStep c (.loadTail h found) = (s, .dequeue (.checkHead2 h s.tail found)) := rfl

theorem deqStep_checkHead2_tail (htl : s.head = tl) :
    s.deqStep c (.checkHead2 s.head tl (some (i, p))) =
      (s, .dequeue (.advanceTail s.head i p (.loadTail tl))) := by
  simp [deqStep, htl]

theorem deqStep_checkHead2_other (htl : s.head ≠ tl) :
    s.deqStep c (.checkHead2 s.head tl (some (i, p))) = (s, .dequeue (.cas s.head i p)) := by
  simp [deqStep, htl]

theorem deqStep_checkHead2_none :
    s.deqStep c (.checkHead2 s.head tl none) = (s, .dequeue (.loadNext s.head)) := by
  simp [deqStep]

theorem deqStep_cas (hp : s.slot h i = p) :
    s.deqStep c (.cas h i p) = (((s.newBox none).setSlot h i s.bound).noteTaken p, .dequeue (.take p)) :=
  if_pos hp

theorem deqStep_take : s.deqStep c (.take p) = (s.replaceBox p, .dequeued (s.boxAt p)) := rfl

theorem deqStep_loadNext_null (hz : s.nextOf h = 0) : s.deqStep c (.loadNext h) = (s, .dequeued none) :=
  if_pos hz

theorem deqStep_loadNext_link (hz : s.nextOf h ≠ 0) :
    s.deqStep c (.loadNext h) = (s, .dequeue (.headLoad h)) :=
  if_neg hz

theorem deqStep_headLoad : s.deqStep c (.headLoad s.head) = (s, .dequeue (.headLoadTail s.head)) :=
  if_pos rfl

theorem deqStep_headLoadTail : s.deqStep c (.headLoadTail h) = (s, .dequeue (.headTailNext h s.tail)) :=
  rfl

theorem deqStep_headTailNext :
    s.deqStep c (.headTailNext h tl) = (s, .dequeue (.headNext h tl (s.nextOf tl))) := rfl

theorem deqStep_headNext {tn : Nat} :
    s.deqStep c (.headNext h tl tn) = (s, .dequeue (.headRecheck h tl tn (s.nextOf h))) := rfl

theorem deqStep_headRecheck {tn hn : Nat} (htl : tl ≠ s.head) :
    s.deqStep c (.headRecheck s.head tl tn hn) = (s, .dequeue (.headSwing s.head hn)) := by
  simp [deqStep, htl]

theorem deqStep_headSwing {hn : Nat} :
    s.deqStep c (.headSwing s.head hn) = ({ s with head := hn }, .dequeue (.headDelete s.head)) :=
  if_pos rfl

theorem deqStep_headDelete : s.deqStep c (.headDelete h) = (s.setDeleted h, .dequeue .loadHead) := rfl

end Shared

/-! ## Steps of one thread -/

/-- One step of thread 0 running alone: the memory after it, with the clock advanced, and the
    thread. -/
def soloStep (cs : Nat → Choice) (sh : Shared V) : Thread V → Option (Shared V × Thread V)
  | .enqueue b pc =>
    some ((sh.enqStep b (cs sh.hist.clock) pc).1.tick, (sh.enqStep b (cs sh.hist.clock) pc).2)
  | .dequeue pc => some ((sh.deqStep (cs sh.hist.clock) pc).1.tick, (sh.deqStep (cs sh.hist.clock) pc).2)
  | _ => none

/-- Thread 0, running alone, gets from one memory and state to another. -/
inductive Reaches (cs : Nat → Choice) : Shared V × Thread V → Shared V × Thread V → Prop
  | refl (x : Shared V × Thread V) : Reaches cs x x
  | step {x y z : Shared V × Thread V} : soloStep cs x.1 x.2 = some y → Reaches cs y z → Reaches cs x z

/-- Thread 0 takes `n` steps of the machine, each with the choice `cs` gives at the clock. -/
def QState.solo (cs : Nat → Choice) : Nat → QState V → Option (QState V)
  | 0, s => some s
  | n + 1, s => (s.exec (.step 0 (cs s.sh.hist.clock))).bind (QState.solo cs n)

variable {cs : Nat → Choice}

namespace Reaches

theorem trans {x y z : Shared V × Thread V} (h₁ : Reaches cs x y) (h₂ : Reaches cs y z) :
    Reaches cs x z := by
  induction h₁ with
  | refl => exact h₂
  | step h _ ih => exact .step h (ih h₂)

theorem enq {sh sh' : Shared V} {b : Nat} {pc : EnqPc} {th' : Thread V} {z : Shared V × Thread V}
    (h : sh.enqStep b (cs sh.hist.clock) pc = (sh', th')) (hr : Reaches cs (sh'.tick, th') z) :
    Reaches cs (sh, .enqueue b pc) z :=
  .step (by simp [soloStep, h]) hr

theorem deq {sh sh' : Shared V} {pc : DeqPc} {th' : Thread V} {z : Shared V × Thread V}
    (h : sh.deqStep (cs sh.hist.clock) pc = (sh', th')) (hr : Reaches cs (sh'.tick, th') z) :
    Reaches cs (sh, .dequeue pc) z :=
  .step (by simp [soloStep, h]) hr

/-- An enqueue inside `advance_tail`: the step of `advance_tail` it takes. -/
theorem enqTail {sh sh' : Shared V} {b : Nat} {pc : TailPc} {next : Option TailPc}
    {z : Shared V × Thread V} (h : sh.advanceTail pc = (sh', next))
    (hr : Reaches cs (sh'.tick, .enqueue b (next.elim .loadTail .advanceTail)) z) :
    Reaches cs (sh, .enqueue b (.advanceTail pc)) z :=
  .enq (by cases next <;> simp [Shared.enqStep, h]) hr

/-- A dequeue inside `advance_tail`, with the exchange of slot `i` still to come. -/
theorem deqTail {sh sh' : Shared V} {h i p : Nat} {pc : TailPc} {next : Option TailPc}
    {z : Shared V × Thread V} (ha : sh.advanceTail pc = (sh', next))
    (hr : Reaches cs (sh'.tick, .dequeue (next.elim (.cas h i p) (.advanceTail h i p))) z) :
    Reaches cs (sh, .dequeue (.advanceTail h i p pc)) z :=
  .deq (by cases next <;> simp [Shared.deqStep, ha]) hr

end Reaches

/-- One step of thread 0 in the machine is its `soloStep`, the other threads left as they are. -/
theorem QState.exec_step_zero {sh : Shared V} {f : Nat → Thread V} :
    (⟨sh, f⟩ : QState V).exec (.step 0 (cs sh.hist.clock)) =
      (soloStep cs sh (f 0)).map fun r => ⟨r.1, store f 0 r.2⟩ := by
  simp only [QState.exec, QState.step]
  cases f 0 <;> rfl

theorem store_store_same {α : Type} (f : Nat → α) (a : Nat) (u w : α) :
    store (store f a u) a w = store f a w := by
  funext x
  by_cases hx : x = a <;> simp [store, hx]

theorem store_self {α : Type} {f : Nat → α} {a : Nat} {u : α} (h : f a = u) : store f a u = f := by
  funext x
  by_cases hx : x = a
  · rw [hx, store_same, h]
  · exact store_ne _ hx

/-- Steps of thread 0 alone are steps of the machine. -/
theorem Reaches.solo {x z : Shared V × Thread V} (h : Reaches cs x z) :
    ∀ f : Nat → Thread V, f 0 = x.2 → ∃ n, (⟨x.1, f⟩ : QState V).solo cs n = some ⟨z.1, store f 0 z.2⟩ := by
  induction h with
  | refl x => exact fun f hf => ⟨0, by rw [store_self hf]; rfl⟩
  | step hxy _ ih =>
    intro f hf
    obtain ⟨n, hn⟩ := ih (store f 0 _) (store_same ..)
    refine ⟨n + 1, ?_⟩
    simp only [QState.solo, QState.exec_step_zero, hf, hxy, Option.map_some', Option.some_bind]
    rw [hn, store_store_same]

theorem QState.solo_add (s : QState V) (m n : Nat) :
    s.solo cs (m + n) = (s.solo cs m).bind (QState.solo cs n) := by
  induction m generalizing s with
  | zero => simp [QState.solo]
  | succ m ih =>
    rw [Nat.succ_add]
    simp only [QState.solo, Option.bind_assoc, ih]

/-- A thread outside a call takes no step. -/
theorem QState.solo_ready {s : QState V} (h : (s.threads 0).Ready = true) (n : Nat) :
    s.solo cs (n + 1) = none := by
  simp only [QState.solo, QState.exec, QState.step]
  cases hs : s.threads 0 <;> simp_all [Thread.Ready]

/-- The run of thread 0 up to the first state where it is outside a call is determined. -/
theorem QState.solo_unique {s s₁ s₂ : QState V} {m n : Nat} (h₁ : s.solo cs m = some s₁)
    (h₂ : s.solo cs n = some s₂) (hr₁ : (s₁.threads 0).Ready = true)
    (hr₂ : (s₂.threads 0).Ready = true) : s₁ = s₂ := by
  rcases Nat.lt_trichotomy m n with hmn | rfl | hnm
  · obtain ⟨d, rfl⟩ := Nat.exists_eq_add_of_lt hmn
    rw [Nat.add_assoc, QState.solo_add, h₁, Option.some_bind, QState.solo_ready hr₁] at h₂
    cases h₂
  · exact Option.some_inj.mp (h₁.symm.trans h₂)
  · obtain ⟨d, rfl⟩ := Nat.exists_eq_add_of_lt hnm
    rw [Nat.add_assoc, QState.solo_add, h₂, Option.some_bind, QState.solo_ready hr₂] at h₁
    cases h₁

theorem Reachable.solo {k n : Nat} {s s' : QState V} (hr : Reachable k s) (h : s.solo cs n = some s') :
    Reachable k s' := by
  induction n generalizing s with
  | zero => cases h; exact hr
  | succ n ih =>
    obtain ⟨s₁, h₁, h₂⟩ := Option.bind_eq_some.mp h
    exact ih (hr.exec h₁) h₂

/-! ## The paths of a call -/

namespace Reaches

open Shared

/-- `find_empty_slot` passes the slots of `pre`, each holding an item. -/
theorem enqScan {b tl : Nat} (rest : List Nat) :
    ∀ (pre : List Nat) (s : Shared V), (∀ j ∈ pre, (s.boxAt (s.slot tl j)).isSome) →
      ∃ m, Reaches cs (s, .enqueue b (EnqPc.scanNext tl (pre ++ rest)))
        (s.ticks m, .enqueue b (EnqPc.scanNext tl rest))
  | [], s, _ => ⟨0, .refl _⟩
  | j :: pre, s, hpre => by
    obtain ⟨m, hm⟩ := enqScan rest pre s.tick.tick fun x hx => hpre x (List.mem_cons_of_mem _ hx)
    refine ⟨m + 2, .enq enqStep_scan (.enq (enqStep_scanRead_item (hpre j (List.mem_cons_self _ _))) ?_)⟩
    rw [← tick_tick_ticks]
    exact hm

/-- `find_item` passes the slots of `pre`, each holding a sentinel. -/
theorem deqScan {h : Nat} (rest : List Nat) :
    ∀ (pre : List Nat) (s : Shared V), (∀ j ∈ pre, s.boxAt (s.slot h j) = none) →
      ∃ m, Reaches cs (s, .dequeue (DeqPc.scanNext h (pre ++ rest)))
        (s.ticks m, .dequeue (DeqPc.scanNext h rest))
  | [], s, _ => ⟨0, .refl _⟩
  | j :: pre, s, hpre => by
    obtain ⟨m, hm⟩ := deqScan rest pre s.tick.tick fun x hx => hpre x (List.mem_cons_of_mem _ hx)
    refine ⟨m + 2, .deq deqStep_scan (.deq (deqStep_scanRead_empty (hpre j (List.mem_cons_self _ _))) ?_)⟩
    rw [← tick_tick_ticks]
    exact hm

/-- `try_enqueue` up to `find_empty_slot`. -/
theorem enqStart (s : Shared V) (b : Nat) :
    Reaches cs (s, .enqueue b .loadTail)
      (s.ticks 2, .enqueue b (EnqPc.scanNext s.tail (s.shuffle (cs (s.hist.clock + 1))))) :=
  .enq enqStep_loadTail (.enq enqStep_checkTail (.refl _))

/-- `find_empty_slot` finds slot `i` of `tail` empty. -/
theorem enqEmpty {s : Shared V} {b i : Nat} {rest : List Nat} (hp : s.boxAt (s.slot s.tail i) = none) :
    Reaches cs (s, .enqueue b (.scan s.tail i rest))
      (s.ticks 2, .enqueue b (.recheck s.tail i (s.slot s.tail i))) :=
  .enq enqStep_scan (.enq (enqStep_scanRead_empty hp) (.refl _))

/-- The exchange into slot `i` of `tail` succeeds, and `commit` finds the item in place. -/
theorem enqSwap {s : Shared V} {b i p : Nat} (hp : s.slot s.tail i = p)
    (hb : (s.setSlot s.tail i b).slot s.tail i = b) (hc : (cs (s.hist.clock + 1)).spurious = false) :
    Reaches cs (s, .enqueue b (.recheck s.tail i p))
      (((s.setSlot s.tail i b).newBox none).ticks 4, .enqueue b (.commitDeleted s.tail i s.head s.bound)) :=
  .enq enqStep_recheck (.enq (enqStep_cas hp hc) (.enq (enqStep_commitLoad hb)
    (.enq enqStep_commitHead (.refl _))))

/-- The exchange into slot `i` of `tail` fails spuriously, and the try starts again. -/
theorem enqSpurious {s : Shared V} {b i p : Nat} (hc : (cs (s.hist.clock + 1)).spurious = true) :
    Reaches cs (s, .enqueue b (.recheck s.tail i p)) (s.ticks 2, .enqueue b .loadTail) :=
  .enq enqStep_recheck (.enq (enqStep_cas_spurious hc) (.refl _))

/-- `commit` finds its segment not deleted and returns `true`, whether or not `head` is the
    segment. -/
theorem enqReturn {s : Shared V} {b tl i h nn : Nat} (hd : s.deletedOf tl = false) (hh : h = s.head) :
    Reaches cs (s, .enqueue b (.commitDeleted tl i h nn)) ((s.tick.enqueueReturn b).tick, .enqueued) := by
  subst hh
  by_cases ht : s.head = tl
  · exact .enq (enqStep_commitDeleted_self hd ht) (.enq enqStep_commitSelf (.refl _))
  · exact .enq (enqStep_commitDeleted_other hd ht) (.enq (enqStep_commitDeleted2 hd) (.refl _))

/-- `try_enqueue` from the empty slot `i` of `tail` on: the exchange succeeds, `commit` finds the
    item in place and the segment not deleted, and returns `true`. -/
theorem enqCommit {s : Shared V} {b i p : Nat} (hp : s.slot s.tail i = p)
    (hb : (s.setSlot s.tail i b).slot s.tail i = b) (hd : s.deletedOf s.tail = false)
    (hc : (cs (s.hist.clock + 1)).spurious = false) :
    Reaches cs (s, .enqueue b (.recheck s.tail i p))
      (((((s.setSlot s.tail i b).newBox none).ticks 5).enqueueReturn b).tick, .enqueued) :=
  (enqSwap hp hb hc).trans (enqReturn ((deletedOf_setSlot s s.tail i b s.tail).trans hd) rfl)

/-- `advance_tail(tail)` inside `try_enqueue` up to its second load of `tail`. -/
theorem enqTailLoad (s : Shared V) (b : Nat) :
    Reaches cs (s, .enqueue b (.advanceTail (.loadTail s.tail)))
      (s.ticks 2, .enqueue b (.advanceTail (.recheck s.tail (s.nextOf s.tail)))) :=
  .enqTail advanceTail_loadTail (.enqTail advanceTail_loadNext (.refl _))

/-- `advance_tail` inside `try_enqueue`, with `tail.next` null: it allocates, links and swings. -/
theorem enqTailLink {s : Shared V} {b next : Nat} (hn : next = 0) (hz : s.nextOf s.tail = 0)
    (hF : s.tail ≠ s.freshSeg) :
    Reaches cs (s, .enqueue b (.advanceTail (.recheck s.tail next))) (s.grow.ticks 3, .enqueue b .loadTail) :=
  .enqTail (advanceTail_recheck hn) (.enqTail (advanceTail_link ((nextOf_newSegment_ne s hF).trans hz))
    (.enqTail advanceTail_swingNew (.refl _)))

/-- `advance_tail(tail)` inside `try_enqueue`, while `tail.next` is null. -/
theorem enqGrow {s : Shared V} {b : Nat} (hz : s.nextOf s.tail = 0) (hF : s.tail ≠ s.freshSeg) :
    Reaches cs (s, .enqueue b (.advanceTail (.loadTail s.tail))) (s.grow.ticks 5, .enqueue b .loadTail) :=
  (enqTailLoad s b).trans (@enqTailLink V cs (s.ticks 2) b _ hz hz hF)

/-- `try_dequeue` up to `find_item`. -/
theorem deqStart (s : Shared V) :
    Reaches cs (s, .dequeue .loadHead)
      (s.ticks 2, .dequeue (DeqPc.scanNext s.head (s.shuffle (cs (s.hist.clock + 1))))) :=
  .deq deqStep_loadHead (.deq deqStep_checkHead (.refl _))

/-- `advance_tail(tail)` inside `try_dequeue` up to its second load of `tail`. -/
theorem deqTailLoad (s : Shared V) (h i p : Nat) :
    Reaches cs (s, .dequeue (.advanceTail h i p (.loadTail s.tail)))
      (s.ticks 2, .dequeue (.advanceTail h i p (.recheck s.tail (s.nextOf s.tail)))) :=
  .deqTail advanceTail_loadTail (.deqTail advanceTail_loadNext (.refl _))

/-- `advance_tail` inside `try_dequeue`, with `tail.next` null: it allocates, links and swings. -/
theorem deqTailLink {s : Shared V} {h i p next : Nat} (hn : next = 0) (hz : s.nextOf s.tail = 0)
    (hF : s.tail ≠ s.freshSeg) :
    Reaches cs (s, .dequeue (.advanceTail h i p (.recheck s.tail next)))
      (s.grow.ticks 3, .dequeue (.cas h i p)) :=
  .deqTail (advanceTail_recheck hn) (.deqTail (advanceTail_link ((nextOf_newSegment_ne s hF).trans hz))
    (.deqTail advanceTail_swingNew (.refl _)))

/-- `find_item` finds the item `p` in slot `i` of `head`, and `tail` is loaded. -/
theorem deqItem {s : Shared V} {i : Nat} {rest : List Nat} (hp : (s.boxAt (s.slot s.head i)).isSome) :
    Reaches cs (s, .dequeue (.scan s.head i rest))
      (s.ticks 3, .dequeue (.checkHead2 s.head s.tail (some (i, s.slot s.head i)))) :=
  .deq deqStep_scan (.deq (deqStep_scanRead_item hp) (.deq deqStep_loadTail (.refl _)))

/-- `try_dequeue` from the item `p` in slot `i` of `head` up to the exchange; when `head` is
    `tail`, `advance_tail` grows the queue first. -/
theorem deqFound {s : Shared V} {i p : Nat} {rest : List Nat} (hp : (s.boxAt (s.slot s.head i)).isSome)
    (hpi : s.slot s.head i = p) (hz : s.nextOf s.tail = 0) (hF : s.tail ≠ s.freshSeg) :
    Reaches cs (s, .dequeue (.scan s.head i rest))
      (if s.head = s.tail then s.grow.ticks 9 else s.ticks 4, .dequeue (.cas s.head i p)) := by
  subst hpi
  refine (deqItem hp).trans ?_
  split_ifs with hh
  · exact .deq (deqStep_checkHead2_tail hh)
      ((deqTailLoad _ _ _ _).trans (@deqTailLink V cs (s.ticks 6) _ _ _ _ hz hz hF))
  · exact .deq (deqStep_checkHead2_other hh) (.refl _)

/-- The exchange on slot `i` of `h` succeeds, and the item's box is emptied and returned. -/
theorem deqTake {s : Shared V} {h i p : Nat} (hp : s.slot h i = p) :
    Reaches cs (s, .dequeue (.cas h i p))
      (((((s.newBox none).setSlot h i s.bound).noteTaken p).replaceBox p).ticks 2,
        .dequeued ((((s.newBox none).setSlot h i s.bound).noteTaken p).boxAt p)) :=
  .deq (deqStep_cas hp) (.deq deqStep_take (.refl _))

/-- `try_dequeue` found nothing and `head.next` is null: `dequeue` returns `None`. -/
theorem deqNone {s : Shared V} (hz : s.nextOf s.head = 0) :
    Reaches cs (s, .dequeue (.loadTail s.head none)) (s.ticks 3, .dequeued none) :=
  .deq deqStep_loadTail (.deq deqStep_checkHead2_none (.deq (deqStep_loadNext_null hz) (.refl _)))

/-- `try_dequeue` found nothing and `head.next` is not null: it calls `advance_head(head)`. -/
theorem deqHeadLoad {s : Shared V} (hz : s.nextOf s.head ≠ 0) :
    Reaches cs (s, .dequeue (.loadTail s.head none)) (s.ticks 4, .dequeue (.headLoadTail s.head)) :=
  .deq deqStep_loadTail (.deq deqStep_checkHead2_none (.deq (deqStep_loadNext_link hz)
    (.deq deqStep_headLoad (.refl _))))

/-- `advance_head(head)` with `tail` elsewhere, up to the exchange on `head`. -/
theorem deqHeadRecheck {s : Shared V} (ht : s.tail ≠ s.head) :
    Reaches cs (s, .dequeue (.headLoadTail s.head))
      (s.ticks 4, .dequeue (.headSwing s.head (s.nextOf s.head))) :=
  .deq deqStep_headLoadTail (.deq deqStep_headTailNext (.deq deqStep_headNext
    (.deq (deqStep_headRecheck ht) (.refl _))))

/-- The exchange moves `head` to `hn`, and the old head is marked deleted. -/
theorem deqHeadSwing (s : Shared V) (hn : Nat) :
    Reaches cs (s, .dequeue (.headSwing s.head hn))
      (({ s with head := hn }.setDeleted s.head).ticks 2, .dequeue .loadHead) :=
  .deq deqStep_headSwing (.deq deqStep_headDelete (.refl _))

/-- `try_dequeue` found nothing and `head.next` is not null: `advance_head` moves `head` one link
    forward and marks the old head deleted, and the dequeue starts again. -/
theorem deqAdvance {s : Shared V} (hz : s.nextOf s.head ≠ 0) (ht : s.tail ≠ s.head) :
    Reaches cs (s, .dequeue (.loadTail s.head none))
      (({ s with head := s.nextOf s.head }.setDeleted s.head).ticks 10, .dequeue .loadHead) :=
  (deqHeadLoad hz).trans ((@deqHeadRecheck V cs (s.ticks 4) ht).trans (deqHeadSwing _ _))

end Reaches

end Rustcurrent.SegQueue
