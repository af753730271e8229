import Rustcurrent.SegQueue.Pending

/-!
# One thread alone: a k-relaxed FIFO queue

A single thread makes calls one after another on `SegQueueOld::new(k)`. Every call returns, and
the answers are those of a k-relaxed FIFO queue (`RelaxedFifo`): a dequeue returns `None` exactly
when the queue is empty, and otherwise one of the `k` oldest items, which leaves the queue.

The queue of a memory is `Shared.pending`. Between two calls the memory is `Calm`: `tail.next` is
null, and the enqueue calls ran one after another in the order of their boxes. One call from a
calm memory (`Live.enqueue`, `Live.dequeue`) is a path of `Reaches` to a calm memory whose queue
is the one `RelaxedStep` allows. An enqueue stores its item into a free slot of `tail`, after
growing the queue once if `tail` is full. A dequeue moves `head` past empty segments and then
either finds `head.next` null and returns `None`, or takes an item from `head`; at that exchange
`Shape.held_returnedBefore_le` bounds the older items in the queue by `k - 1`.

The outcome of the shuffles is any `cs`; the theorems assume that `compare_exchange_weak`
(line 81) fails spuriously only up to some clock, and a try that fails starts again
(`Live.enqueue_slot`).
-/

namespace Rustcurrent.SegQueue

variable {V : Type}

/-! ## The specification -/

/-- A call of the queue. -/
inductive Op (V : Type) where
  | enqueue (v : V)
  | dequeue
  deriving DecidableEq, Repr

/-- A call with what it returned. -/
inductive Call (V : Type) where
  | enqueue (v : V)
  | dequeue (r : Option V)
  deriving DecidableEq, Repr

/-- The call made. -/
def Call.op : Call V → Op V
  | .enqueue v => .enqueue v
  | .dequeue _ => .dequeue

/-- One call of a k-relaxed FIFO queue holding `q`, oldest first: an enqueue appends; a dequeue
    returns `None` when the queue is empty, and otherwise the item at some position `j < k`,
    which leaves the queue. -/
inductive RelaxedStep (k : Nat) : List V → Call V → List V → Prop
  | enqueue (q : List V) (v : V) : RelaxedStep k q (.enqueue v) (q ++ [v])
  | dequeueNone : RelaxedStep k [] (.dequeue none) []
  | dequeue (q : List V) (j : Nat) (hj : j < k) (hq : j < q.length) :
      RelaxedStep k q (.dequeue (some q[j])) (q.eraseIdx j)

/-- A sequence of calls a k-relaxed FIFO queue holding `q` may answer as it did. -/
inductive RelaxedFifo (k : Nat) : List V → List (Call V) → Prop
  | nil (q : List V) : RelaxedFifo k q []
  | cons {q q' : List V} {c : Call V} {calls : List (Call V)} :
      RelaxedStep k q c q' → RelaxedFifo k q' calls → RelaxedFifo k q (c :: calls)

/-! ## Calls made one after another -/

namespace QState

/-- Thread 0 runs alone until it is out of its call, for at most `fuel` steps. -/
def finish (cs : Nat → Choice) : Nat → QState V → Option (QState V)
  | 0, s => if (s.threads 0).Ready then some s else none
  | fuel + 1, s =>
    if (s.threads 0).Ready then some s else (s.exec (.step 0 (cs s.sh.hist.clock))).bind (finish cs fuel)

/-- Thread 0 invokes `op`. -/
def invoke (s : QState V) : Op V → Option (QState V)
  | .enqueue v => s.exec (.enqueue 0 v)
  | .dequeue => s.exec (.dequeue 0)

end QState

/-- What the call `op` returned, read off the thread after it. -/
def Thread.returned : Op V → Thread V → Option (Call V)
  | .enqueue v, .enqueued => some (.enqueue v)
  | .dequeue, .dequeued r => some (.dequeue r)
  | _, _ => none

/-- Thread 0 alone makes the calls `ops` in turn, each run to its return within `fuel` steps:
    the calls with what they returned. -/
def QState.calls (cs : Nat → Choice) (fuel : Nat) : QState V → List (Op V) → Option (List (Call V))
  | _, [] => some []
  | s, op :: ops => do
    let s' ← (s.invoke op).bind (QState.finish cs fuel)
    let c ← Thread.returned op (s'.threads 0)
    let rest ← QState.calls cs fuel s' ops
    pure (c :: rest)

variable {cs : Nat → Choice}

namespace QState

/-- A run of thread 0 that ends out of its call is what `finish` finds, given the fuel. -/
theorem finish_of_solo {s s' : QState V} {n fuel : Nat} (h : s.solo cs n = some s')
    (hr : (s'.threads 0).Ready = true) (hn : n ≤ fuel) : s.finish cs fuel = some s' := by
  induction n generalizing s fuel with
  | zero =>
    cases h
    cases fuel <;> simp [finish, hr]
  | succ n ih =>
    obtain ⟨fuel, rfl⟩ : ∃ f, fuel = f + 1 := ⟨fuel - 1, by omega⟩
    have hs : (s.threads 0).Ready = false := by
      cases hs : (s.threads 0).Ready
      · rfl
      · rw [solo_ready hs] at h; cases h
    obtain ⟨s₁, h₁, h₂⟩ := Option.bind_eq_some.mp h
    simp only [finish, hs, h₁, Option.some_bind, if_false, Bool.false_eq_true]
    exact ih h₂ (by omega)

/-- What `finish` finds is a run of thread 0 that ends out of its call. -/
theorem solo_of_finish {s s' : QState V} {fuel : Nat} (h : s.finish cs fuel = some s') :
    ∃ n, s.solo cs n = some s' ∧ (s'.threads 0).Ready = true := by
  induction fuel generalizing s with
  | zero =>
    simp only [finish] at h
    split_ifs at h with hr
    cases h
    exact ⟨0, rfl, hr⟩
  | succ fuel ih =>
    simp only [finish] at h
    split_ifs at h with hr
    · cases h
      exact ⟨0, rfl, hr⟩
    · obtain ⟨s₁, h₁, h₂⟩ := Option.bind_eq_some.mp h
      obtain ⟨n, hn, hr'⟩ := ih h₂
      exact ⟨n + 1, by simp only [solo, h₁, Option.some_bind, hn], hr'⟩

end QState

/-! ## A thread running alone in a reachable state -/

/-- Thread 0, in state `x.2` over the memory `x.1`, is part of a reachable state. -/
def Live (k : Nat) (x : Shared V × Thread V) : Prop :=
  ∃ f : Nat → Thread V, f 0 = x.2 ∧ Reachable k ⟨x.1, f⟩

namespace Live

variable {k : Nat} {x z : Shared V × Thread V}

theorem reaches (h : Live k x) (hr : Reaches cs x z) : Live k z :=
  let ⟨f, hf, hrf⟩ := h
  let ⟨_, hn⟩ := hr.solo f hf
  ⟨store f 0 z.2, store_same .., hrf.solo hn⟩

theorem shape (h : Live k x) : x.1.Shape := let ⟨_, _, hr⟩ := h; hr.inv.shape

theorem timeline (h : Live k x) : x.1.Timeline := let ⟨_, _, hr⟩ := h; hr.inv.timeline

theorem ok (h : Live k x) : x.2.Ok x.1 := let ⟨_, hf, hr⟩ := h; hf ▸ hr.inv.ok 0

theorem k_eq (h : Live k x) : x.1.k = k := let ⟨_, _, hr⟩ := h; hr.k_eq

end Live

/-! ## Between two calls -/

namespace Shared

variable {s : Shared V}

/-- What holds of the memory between the calls of a thread running alone. -/
structure Calm (s : Shared V) : Prop where
  tail_next : s.nextOf s.tail = 0
  /-- A box holding an item was boxed by an enqueue call. -/
  item : ∀ a, (s.boxAt a).isSome → s.IsItem a
  /-- Every enqueue call returned. -/
  returned : ∀ a, s.IsItem a → (s.hist.returnedAt a).isSome
  /-- The enqueue calls ran one after another, in the order of their boxes. -/
  order : ∀ a b, s.IsItem a → s.IsItem b → a < b → s.returnedBefore a b = true

/-- A memory with the calls of a calm one, no other item and `tail.next` null is calm. -/
theorem Calm.of_hist {s' : Shared V} (hc : s.Calm) (htn : s'.nextOf s'.tail = 0)
    (hinv : s'.hist.invokedAt = s.hist.invokedAt) (hret : s'.hist.returnedAt = s.hist.returnedAt)
    (hbox : ∀ a, (s'.boxAt a).isSome → (s.boxAt a).isSome) : s'.Calm := by
  have hi : ∀ a, s'.IsItem a ↔ s.IsItem a := fun a => by simp only [IsItem, hinv]
  have hrb : ∀ a b, s'.returnedBefore a b = s.returnedBefore a b := fun a b => by
    simp only [returnedBefore, hinv, hret]
  exact ⟨htn, fun a h => (hi a).mpr (hc.item a (hbox a h)),
    fun a h => hret ▸ hc.returned a ((hi a).mp h),
    fun a b ha hb hab => (hrb a b).trans (hc.order a b ((hi a).mp ha) ((hi b).mp hb) hab)⟩

/-- The enqueue call of the fresh box `s.bound`, invoked at the clock of `s` and returned at `r`,
    after the calls of a calm memory. -/
theorem Calm.enqueue {F : Shared V} (hc : s.Calm) (hs : s.Shape) (ht : s.Timeline) {r : Nat}
    (htn : F.nextOf F.tail = 0)
    (hinv : F.hist.invokedAt = store s.hist.invokedAt s.bound (some s.hist.clock))
    (hret : F.hist.returnedAt = store s.hist.returnedAt s.bound (some r))
    (hbox : ∀ a, (F.boxAt a).isSome → a = s.bound ∨ (s.boxAt a).isSome) : F.Calm := by
  have hi : ∀ a, F.IsItem a ↔ a = s.bound ∨ s.IsItem a := fun a => by
    by_cases ha : a = s.bound
    · subst ha; simp [IsItem, hinv]
    · simp [IsItem, hinv, store_ne _ ha, ha]
  have hlt : ∀ a, s.IsItem a → a < s.bound := fun a h => (hs.box_fresh a (ht.item_box a h)).2
  have hret_ne : ∀ a, a ≠ s.bound → F.hist.returnedAt a = s.hist.returnedAt a := fun a ha => by
    rw [hret, store_ne _ ha]
  have hinv_ne : ∀ a, a ≠ s.bound → F.hist.invokedAt a = s.hist.invokedAt a := fun a ha => by
    rw [hinv, store_ne _ ha]
  refine ⟨htn, fun a h => (hi a).mpr ((hbox a h).imp_right (hc.item a)), fun a h => ?_,
    fun a b ha hb hab => ?_⟩
  · rcases (hi a).mp h with rfl | h
    · simp [hret]
    · rw [hret_ne a (Nat.ne_of_lt (hlt a h))]
      exact hc.returned a h
  · have ha' : s.IsItem a := ((hi a).mp ha).resolve_left fun h => by
      rcases (hi b).mp hb with rfl | hb
      · omega
      · have := hlt b hb; omega
    have han := Nat.ne_of_lt (hlt a ha')
    obtain ⟨ra, hra⟩ := Option.isSome_iff_exists.mp (hc.returned a ha')
    rcases (hi b).mp hb with rfl | hb'
    · obtain ⟨-, -, -, hlt'⟩ := ht.returned_lt a ra hra
      exact returnedBefore_iff.mpr ⟨ra, s.hist.clock, (hret_ne a han).trans hra, by simp [hinv], hlt'⟩
    · obtain ⟨r₁, i₁, h₁, h₂, h₃⟩ := returnedBefore_iff.mp (hc.order a b ha' hb' hab)
      exact returnedBefore_iff.mpr ⟨r₁, i₁, (hret_ne a han).trans h₁,
        (hinv_ne b (Nat.ne_of_lt (hlt b hb'))).trans h₂, h₃⟩

theorem Shape.ticks (hs : s.Shape) (n : Nat) : (s.ticks n).Shape :=
  (show (s.ticks n).Shape ∧ Grows s (s.ticks n) from hs.of_same rfl rfl rfl rfl rfl rfl rfl).1

theorem slot_setSlot_self {a i p : Nat} {sg : Segment} (hsg : s.segs a = some sg)
    (hi : i < sg.data.length) : (s.setSlot a i p).slot a i = p := by
  simp [slot, Shared.setSlot, modifySeg_segs, hsg, hi]

/-- `F` is `S` after the enqueue of the item `b` stored it into a free slot of `tail` and
    returned, with other boxes allocated. -/
structure Enqueued (S F : Shared V) (b : Nat) : Prop where
  pending : ∀ a, F.Pending a = (S.Pending a || a == b)
  value : ∀ a, a < S.bound → F.boxAt a = S.boxAt a
  fresh : ∀ a, S.bound ≤ a → F.boxAt a = none
  tail_next : F.nextOf F.tail = S.nextOf S.tail
  invoked : F.hist.invokedAt = S.hist.invokedAt
  returned : ∃ r, F.hist.returnedAt = store S.hist.returnedAt b (some r)

/-- Only the clock moved before the enqueue: the same item joined the same queue. -/
theorem Enqueued.of_ticks {S F : Shared V} {b n : Nat} (h : (S.ticks n).Enqueued F b) : S.Enqueued F b :=
  ⟨fun a => by rw [h.pending, (retains_ticks n).same], h.value, h.fresh, h.tail_next, h.invoked,
    h.returned⟩

end Shared

open Shared

variable {k : Nat}

/-! ## An enqueue -/

/-- One `try_enqueue` with a free slot in `tail`: `find_empty_slot` finds the first free slot of
    the shuffled order, and the exchange there either stores the item, after which `commit` returns
    `true`, or fails spuriously (line 81), after which the try starts again with only the clock
    moved. -/
theorem Live.enqueue_slot_or_retry {S : Shared V} {b : Nat} (hl : Live k (S, .enqueue b .loadTail))
    (hb : (S.boxAt b).isSome) (hfree : ∃ j < S.k, S.boxAt (S.slot S.tail j) = none) :
    (∃ F, Reaches cs (S, .enqueue b .loadTail) (F, .enqueued) ∧ S.Enqueued F b) ∨
      ∃ n, (cs ((S.ticks n).hist.clock + 1)).spurious = true ∧
        Reaches cs (S, .enqueue b .loadTail) ((S.ticks n).ticks 2, .enqueue b .loadTail) := by
  obtain ⟨j₀, hj₀, hf₀⟩ := hfree
  have hs : S.Shape := hl.shape
  have hperm := S.shuffle_perm (cs (S.hist.clock + 1))
  have hfind : ((S.shuffle (cs (S.hist.clock + 1))).find?
      fun j => (S.boxAt (S.slot S.tail j)).isNone).isSome :=
    List.find?_isSome.mpr ⟨j₀, hperm.mem_iff.mpr (List.mem_range.mpr hj₀), by simp [hf₀]⟩
  obtain ⟨j, hj⟩ := Option.isSome_iff_exists.mp hfind
  obtain ⟨hjn, pre, rest, hsplit, hpre⟩ := List.find?_eq_some.mp hj
  have hjk : j < S.k :=
    List.mem_range.mp (hperm.mem_iff.mp (hsplit ▸ List.mem_append_right _ (List.mem_cons_self _ _)))
  have hjf : S.boxAt (S.slot S.tail j) = none := Option.isNone_iff_eq_none.mp hjn
  obtain ⟨m, hm⟩ := @Reaches.enqScan V cs b S.tail (j :: rest) pre (S.ticks 2) fun x hx => by
    simpa using hpre x hx
  have hstart := @Reaches.enqStart V cs S b
  rw [hsplit] at hstart
  have h₁ : Reaches cs ((S.ticks 2).ticks m, .enqueue b (.scan S.tail j rest))
      (((S.ticks 2).ticks m).ticks 2, .enqueue b (.recheck S.tail j (S.slot S.tail j))) :=
    Reaches.enqEmpty hjf
  have h := hstart.trans (hm.trans h₁)
  rw [ticks_add, ticks_add] at h
  generalize 2 + (m + 2) = n at h
  cases hc : (cs ((S.ticks n).hist.clock + 1)).spurious
  case true => exact .inr ⟨n, hc, h.trans (Reaches.enqSpurious hc)⟩
  case false =>
  obtain ⟨sg, hsg⟩ := Option.isSome_iff_exists.mp (hs.chain_seg _ hs.tail_mem)
  have hj' : j < (S.segData S.tail).length := by rw [segData_of_segs hsg, (hs.slots _ sg hsg).1]; exact hjk
  have h₂ := @Reaches.enqCommit V cs (S.ticks n) b j _ rfl
    (@slot_setSlot_self V (S.ticks n) S.tail j b sg hsg (by rw [segData_of_segs hsg] at hj'; exact hj'))
    (hs.undeleted _ hs.tail_mem hs.head_le_tail) hc
  have h := h.trans h₂
  have hF := (hl.reaches h).shape
  have hbox : ∀ a, a ≠ S.bound →
      ((((((S.ticks n).setSlot S.tail j b).newBox none).ticks 5).enqueueReturn b).tick).boxAt a =
        S.boxAt a := fun a ha => by
    simp only [boxAt_tick, boxAt_enqueueReturn, boxAt_ticks, boxAt_newBox, boxAt_setSlot]
    exact if_neg ha
  have hnew : ((((((S.ticks n).setSlot S.tail j b).newBox none).ticks 5).enqueueReturn b).tick).boxAt
      S.bound = none := by
    simp only [boxAt_tick, boxAt_enqueueReturn, boxAt_ticks, boxAt_newBox, boxAt_setSlot]
    exact if_pos rfl
  refine .inl ⟨_, h, ⟨fun a => ?_, fun a ha => hbox a (Nat.ne_of_lt ha), fun a ha => ?_, ?_, rfl, ⟨_, rfl⟩⟩⟩
  · rw [(hs.ticks n).pending_fill hF rfl rfl (fun _ => rfl) hbox hnew hjf hj' hb a,
      (retains_ticks n).same a]
  · rcases Nat.eq_or_lt_of_le ha with rfl | ha
    · exact hnew
    · exact (hbox a (Nat.ne_of_gt ha)).trans (hs.boxAt_eq_none ha.le)
  · simp only [nextOf_tick, nextOf_enqueueReturn, nextOf_ticks, nextOf_newBox, nextOf_setSlot]
    rfl

/-- `try_enqueue` with a free slot in `tail`, tried again after each spurious failure of the
    exchange: once no failure comes after some clock `N`, the call returns. -/
theorem Live.enqueue_slot {S : Shared V} {b : Nat} (hl : Live k (S, .enqueue b .loadTail))
    (hcs : ∃ N, ∀ n, N ≤ n → (cs n).spurious = false) (hb : (S.boxAt b).isSome)
    (hfree : ∃ j < S.k, S.boxAt (S.slot S.tail j) = none) :
    ∃ F, Reaches cs (S, .enqueue b .loadTail) (F, .enqueued) ∧ S.Enqueued F b := by
  obtain ⟨N, hN⟩ := hcs
  generalize hd : N - S.hist.clock = d
  induction d using Nat.strong_induction_on generalizing S with
  | _ d ih =>
    rcases hl.enqueue_slot_or_retry hb hfree with he | ⟨n, hn, hr⟩
    · exact he
    · have hlt : S.hist.clock + n + 1 < N :=
        Nat.lt_of_not_le fun h => Bool.false_ne_true ((hN _ h).symm.trans hn)
      obtain ⟨F, hF, he⟩ := ih _ (by rw [← hd]; simp only [ticks]; omega) (hl.reaches hr) hb hfree rfl
      exact ⟨F, hr.trans hF, he.of_ticks.of_ticks⟩

/-- `try_enqueue`, with every slot of `tail` holding an item: `find_empty_slot` finds none, and
    `advance_tail` links a new segment and moves `tail` to it. -/
theorem Live.enqueue_grow {S : Shared V} {b : Nat} (hl : Live k (S, .enqueue b .loadTail))
    (htn : S.nextOf S.tail = 0) (hfull : ∀ j < S.k, (S.boxAt (S.slot S.tail j)).isSome) :
    ∃ n, Reaches cs (S, .enqueue b .loadTail) ((S.ticks n).grow.ticks 5, .enqueue b .loadTail) := by
  have hs : S.Shape := hl.shape
  have hperm := S.shuffle_perm (cs (S.hist.clock + 1))
  obtain ⟨m, hm⟩ := @Reaches.enqScan V cs b S.tail [] (S.shuffle (cs (S.hist.clock + 1))) (S.ticks 2)
    fun x hx => hfull x (List.mem_range.mp (hperm.mem_iff.mp hx))
  rw [List.append_nil] at hm
  have hF : S.tail ≠ S.freshSeg := by
    have := (hs.seg_fresh _ (hs.chain_seg _ hs.tail_mem)).2
    unfold freshSeg; omega
  have h := (@Reaches.enqStart V cs S b).trans
    (hm.trans (@Reaches.enqGrow V cs ((S.ticks 2).ticks m) b htn hF))
  rw [ticks_add] at h
  exact ⟨_, h⟩

namespace Shared

variable {s : Shared V}

theorem Shape.of_ticks {n : Nat} (hs : (s.ticks n).Shape) : s.Shape :=
  (show s.Shape ∧ Grows (s.ticks n) s from hs.of_same rfl rfl rfl rfl rfl rfl rfl).1

theorem k_ticks (n : Nat) : (s.ticks n).k = s.k := rfl

/-- The segment `grow` links behind `tail` holds only sentinels: its first slot is free. -/
theorem grow_free {n : Nat} (hk : 0 < s.k) :
    ∃ j < (s.grow.ticks n).k, (s.grow.ticks n).boxAt ((s.grow.ticks n).slot (s.grow.ticks n).tail j) = none :=
  ⟨0, hk, by
    show s.grow.boxAt (s.grow.slot s.freshSeg 0) = none
    rw [grow_slot_fresh hk, grow_boxAt, if_pos (by unfold freshSeg; omega)]⟩

/-- The memory of an enqueue of `v` on `s`, after its invocation and before its item is stored:
    the queue of `s`, the item's box `s.bound` holding `v`, the call invoked at the clock of `s`. -/
structure Invoked (s S : Shared V) (v : V) : Prop where
  retains : Retains s S
  item : S.boxAt s.bound = some v
  boxes : ∀ a, (S.boxAt a).isSome → a = s.bound ∨ (s.boxAt a).isSome
  invoked : S.hist.invokedAt = store s.hist.invokedAt s.bound (some s.hist.clock)
  returned : S.hist.returnedAt = s.hist.returnedAt
  tail_next : S.nextOf S.tail = 0

theorem Calm.invoked (hc : s.Calm) (hs : s.Shape) (v : V) : Invoked s (s.invokeEnqueue v).tick v := by
  have hbox : ∀ a, (s.invokeEnqueue v).tick.boxAt a = (s.newBox (some v)).boxAt a := fun _ => rfl
  refine ⟨(hs.retains_newBox (some v)).trans (retains_of_memory rfl rfl rfl rfl), ?_, fun a h => ?_,
    rfl, rfl, hc.tail_next⟩
  · rw [hbox, boxAt_newBox, if_pos rfl]
  · rw [hbox, boxAt_newBox] at h
    split_ifs at h with ha
    · exact .inl ha
    · exact .inr h

/-- Growing the queue keeps what the invocation left. -/
theorem Invoked.grow {S : Shared V} {v : V} (hi : Invoked s S v) (hS : S.Shape) (n : Nat)
    (hg : (S.ticks n).grow.Shape) : Invoked s ((S.ticks n).grow.ticks 5) v := by
  have hlt : s.bound < S.bound := hS.lt_bound_of_boxAt (by rw [hi.item]; rfl)
  have hF : S.tail ≠ S.freshSeg := by
    have := (hS.seg_fresh _ (hS.chain_seg _ hS.tail_mem)).2
    unfold freshSeg; omega
  have hbox : ∀ a, ((S.ticks n).grow.ticks 5).boxAt a =
      if S.bound ≤ a ∧ a < S.freshSeg then none else S.boxAt a := fun a => grow_boxAt a
  refine ⟨hi.retains.trans ((retains_ticks n).trans (((hS.ticks n).retains_grow hg).trans
    (retains_ticks 5))), by rw [hbox, if_neg (by omega), hi.item], fun a h => ?_, hi.invoked,
    hi.returned, ?_⟩
  · rw [hbox] at h
    split_ifs at h
    · cases h
    · exact hi.boxes a h
  · exact @grow_tail_next V (S.ticks n) hF

/-- The enqueue of `v` on a calm `s` stored its item and returned: `v` joins the queue behind its
    items, and the memory is calm. -/
theorem Invoked.enqueued {S F : Shared V} {v : V} (hi : Invoked s S v) (he : S.Enqueued F s.bound)
    (hc : s.Calm) (hs : s.Shape) (ht : s.Timeline) (hS : S.Shape) (hF : F.Shape) :
    F.Calm ∧ F.pending = s.pending ++ [v] := by
  have hbS : s.bound < S.bound := hS.lt_bound_of_boxAt (by rw [hi.item]; rfl)
  have hFbox : ∀ a, (F.boxAt a).isSome → F.boxAt a = S.boxAt a := fun a h => by
    by_cases ha : a < S.bound
    · exact he.value a ha
    · rw [he.fresh a (Nat.le_of_not_lt ha)] at h; cases h
  obtain ⟨r, hr⟩ := he.returned
  refine ⟨hc.enqueue hs ht (he.tail_next.trans hi.tail_next) (he.invoked.trans hi.invoked)
    (by rw [hr, hi.returned]) fun a h => hi.boxes a (hFbox a h ▸ h), ?_⟩
  have hbs : S.pendingBoxes = s.pendingBoxes :=
    hS.pendingBoxes_eq pendingBoxes_pairwise fun a => by rw [hi.retains.same, hs.mem_pendingBoxes]
  have hlt : ∀ a, S.Pending a = true → a < s.bound := fun a ha =>
    hs.lt_bound_of_boxAt (pending_eq_true.mp ((hi.retains.same a).symm.trans ha)).1
  have hv : F.boxAt s.bound = some v := (he.value _ hbS).trans hi.item
  rw [pending, hS.pendingBoxes_snoc hF he.pending hlt, hbs, List.filterMap_append, pending]
  simp only [List.filterMap_cons, hv, List.filterMap_nil]
  refine congrArg (· ++ [v]) (List.filterMap_congr fun a ha => ?_)
  have hpa := hs.mem_pendingBoxes.mp ha
  exact (he.value a (hS.lt_bound_of_boxAt (pending_eq_true.mp
    ((hi.retains.same a).trans hpa)).1)).trans (hi.retains.value a hpa)

end Shared

/-- `enqueue(v)` on a calm memory: the call returns, to a calm memory whose queue has `v` behind
    the items of `s`. -/
theorem Live.enqueue (hk : 1 ≤ k) (hcs : ∃ N, ∀ n, N ≤ n → (cs n).spurious = false) {s : Shared V} {v : V}
    (hl : Live k ((s.invokeEnqueue v).tick, .enqueue s.bound .loadTail)) (hc : s.Calm)
    (hs : s.Shape) (ht : s.Timeline) :
    ∃ F, Reaches cs ((s.invokeEnqueue v).tick, .enqueue s.bound .loadTail) (F, .enqueued) ∧
      F.Calm ∧ F.pending = s.pending ++ [v] := by
  have hi := hc.invoked hs v
  have hS₁ : (s.invokeEnqueue v).tick.Shape := hl.shape
  have hb : ∀ {S : Shared V}, Invoked s S v → (S.boxAt s.bound).isSome := fun h => by
    rw [h.item]; rfl
  by_cases hfree : ∃ j < (s.invokeEnqueue v).tick.k,
      (s.invokeEnqueue v).tick.boxAt ((s.invokeEnqueue v).tick.slot (s.invokeEnqueue v).tick.tail j) = none
  · obtain ⟨F, hr, he⟩ := hl.enqueue_slot hcs (hb hi) hfree
    exact ⟨F, hr, hi.enqueued he hc hs ht hS₁ (hl.reaches hr).shape⟩
  · obtain ⟨n, hg⟩ := hl.enqueue_grow hi.tail_next fun j hj => by
      by_contra h
      exact hfree ⟨j, hj, Option.not_isSome_iff_eq_none.mp (by simpa using h)⟩
    have hlg := hl.reaches hg
    have hG : ((s.invokeEnqueue v).tick.ticks n).grow.Shape := Shape.of_ticks hlg.shape
    have hi' := hi.grow hS₁ n hG
    have hk₁ : (s.invokeEnqueue v).tick.k = k := hl.k_eq
    obtain ⟨F, hr, he⟩ := hlg.enqueue_slot hcs (hb hi') (grow_free (by rw [k_ticks, hk₁]; omega))
    exact ⟨F, hg.trans hr, hi'.enqueued he hc hs ht hlg.shape (hlg.reaches hr).shape⟩

/-! ## A dequeue -/

/-- Taking the item `v` behind `q₁`, when `q₁` has fewer than `k` items. -/
theorem RelaxedStep.dequeue_mid {k : Nat} {q₁ q₂ : List V} {v : V} (hk : q₁.length < k) :
    RelaxedStep k (q₁ ++ v :: q₂) (.dequeue (some v)) (q₁ ++ q₂) := by
  have h := @RelaxedStep.dequeue V k (q₁ ++ v :: q₂) q₁.length hk (by simp)
  have e₁ : (q₁ ++ v :: q₂)[q₁.length] = v := by
    rw [List.getElem_append_right (le_refl _)]
    simp
  have e₂ : (q₁ ++ v :: q₂).eraseIdx q₁.length = q₁ ++ q₂ := by
    rw [List.eraseIdx_append_of_length_le le_rfl]
    simp
  rwa [e₁, e₂] at h

namespace Shared

variable {S T F : Shared V}

/-- The exchange on slot `j` of `head` took the item `p` out of `T`, the memory of `S` with at
    most a new segment behind `tail`, and its box was emptied: `F`, with `p` out of the queue, is
    calm, and `p` was one of the `k` oldest items (`Shape.held_returnedBefore_le`). -/
theorem Calm.take (hc : S.Calm) (hS : S.Shape) (hT : T.Shape) (htl : T.Timeline) (hF : F.Shape)
    (hr : Retains S T) (hinv : T.hist.invokedAt = S.hist.invokedAt)
    (hret : T.hist.returnedAt = S.hist.returnedAt) (htn : T.nextOf T.tail = 0)
    (hbox : ∀ a, (T.boxAt a).isSome → (S.boxAt a).isSome) (hkk : T.k = S.k) {j p : Nat}
    (hj : j < S.k) (hp : S.slot S.head j = p) (hpT : T.slot S.head j = p)
    (hbelow : T.Below S.head) (hitem : (S.boxAt p).isSome)
    (hFdef : F = ((((T.newBox none).setSlot S.head j T.bound).noteTaken p).replaceBox p).ticks 2) :
    F.Calm ∧ RelaxedStep S.k S.pending
      (.dequeue ((((T.newBox none).setSlot S.head j T.bound).noteTaken p).boxAt p)) F.pending := by
  have hpS : S.Pending p = true := pending_eq_true.mpr ⟨hitem, hS.mem_held.mpr
    ⟨S.head, hS.head_mem, le_rfl, hp ▸ hS.slot_mem_segData hS.head_mem hj⟩⟩
  have hpT' : (T.boxAt p).isSome := by rw [hr.value p hpS]; exact hitem
  have hpb : p < T.bound := hT.lt_bound_of_boxAt hpT'
  -- the boxes `F` reads
  have hFbox : ∀ a, F.boxAt a = if a = p then none else if a = T.bound then none else T.boxAt a := by
    intro a
    subst hFdef
    simp only [boxAt_ticks, boxAt_replaceBox, boxAt_noteTaken, boxAt_setSlot, boxAt_newBox]
  have hvp : (((T.newBox none).setSlot S.head j T.bound).noteTaken p).boxAt p = S.boxAt p := by
    rw [boxAt_noteTaken, boxAt_setSlot, boxAt_newBox, if_neg (Nat.ne_of_lt hpb), hr.value p hpS]
  -- the queue of `S` around `p`
  obtain ⟨L₁, L₂, hsplit⟩ := List.append_of_mem (hS.mem_pendingBoxes.mpr hpS)
  obtain ⟨hw₁, hw₂, hw₁₂⟩ := List.pairwise_append.mp (hsplit ▸ (@pendingBoxes_pairwise V S))
  have hlt₁ : ∀ a ∈ L₁, a < p := fun a ha => hw₁₂ a ha p (List.mem_cons_self _ _)
  have hlt₂ : ∀ a ∈ L₂, p < a := fun a ha => (List.pairwise_cons.mp hw₂).1 a ha
  -- the older items of the queue are among those the count of `held_returnedBefore_le` bounds
  have hsub : L₁ ⊆ T.held.filter fun u => T.returnedBefore u p := fun a ha => by
    have haS : S.Pending a = true := hS.mem_pendingBoxes.mp (hsplit ▸ List.mem_append_left _ ha)
    refine List.mem_filter.mpr ⟨(pending_eq_true.mp ((hr.same a).trans haS)).2, ?_⟩
    have hrb : T.returnedBefore a p = S.returnedBefore a p := by
      simp only [returnedBefore, hinv, hret]
    rw [hrb]
    exact hc.order a p (hc.item a (pending_eq_true.mp haS).1) (hc.item p hitem) (hlt₁ a ha)
  have hlen : L₁.length ≤ T.k - 1 :=
    (List.subperm_of_subset (hw₁.imp Nat.ne_of_lt) hsub).length_le.trans
      (hT.held_returnedBefore_le htl hbelow hpT
        ((Option.isSome_iff_exists.mp hpT').elim fun _ hv => isBox_of_boxAt hv))
  -- the queue of `F`
  have hFp : ∀ a, F.Pending a = (T.Pending a && a != p) := hT.pending_take (hFdef ▸ hF)
    (by subst hFdef; rfl) (by subst hFdef; rfl) (fun x => by subst hFdef; rfl)
    (fun a hap hab => by rw [hFbox, if_neg hap, if_neg hab]) (by rw [hFbox, if_pos rfl])
    (by rw [hFbox, if_neg (Nat.ne_of_gt hpb), if_pos rfl]) hpT
  have hbT : T.pendingBoxes = S.pendingBoxes :=
    hT.pendingBoxes_eq pendingBoxes_pairwise fun a => by rw [hr.same, hS.mem_pendingBoxes]
  have hbF : F.pendingBoxes = L₁ ++ L₂ := by
    rw [hT.pendingBoxes_erase hF hFp, hbT, hsplit, List.erase_append_right _ fun h => Nat.lt_irrefl _ (hlt₁ p h),
      List.erase_cons_head]
  obtain ⟨v, hv⟩ := Option.isSome_iff_exists.mp hitem
  have hval : ∀ a ∈ L₁ ++ L₂, F.boxAt a = S.boxAt a := fun a ha => by
    have hap : a ≠ p := by
      rcases List.mem_append.mp ha with ha | ha
      · exact Nat.ne_of_lt (hlt₁ a ha)
      · exact Nat.ne_of_gt (hlt₂ a ha)
    have haS : S.Pending a = true := hS.mem_pendingBoxes.mp (by
      rw [hsplit]; rcases List.mem_append.mp ha with ha | ha
      · exact List.mem_append_left _ ha
      · exact List.mem_append_right _ (List.mem_cons_of_mem _ ha))
    have hab : a ≠ T.bound := Nat.ne_of_lt (hT.lt_bound_of_boxAt
      (pending_eq_true.mp ((hr.same a).trans haS)).1)
    rw [hFbox, if_neg hap, if_neg hab, hr.value a haS]
  refine ⟨hc.of_hist ?_ (by subst hFdef; exact hinv) (by subst hFdef; exact hret) fun a h => ?_, ?_⟩
  · subst hFdef
    simpa only [nextOf_ticks, nextOf_replaceBox, nextOf_noteTaken, nextOf_setSlot, nextOf_newBox] using htn
  · rw [hFbox] at h
    split_ifs at h
    · cases h
    · cases h
    · exact hbox a h
  · rw [hvp, hv, pending, hsplit, List.filterMap_append, List.filterMap_cons, hv, pending, hbF,
      List.filterMap_append, List.filterMap_congr fun a ha => hval a (List.mem_append_left _ ha),
      List.filterMap_congr fun a ha => hval a (List.mem_append_right _ ha)]
    refine RelaxedStep.dequeue_mid ((List.length_filterMap_le _ _).trans_lt ?_)
    rw [← hkk]
    omega

end Shared

/-- `find_item` at the slots of the shuffled order: `pre` hold sentinels. -/
theorem Live.dequeue_scan {S : Shared V} {pre rest : List Nat}
    (hord : S.shuffle (cs (S.hist.clock + 1)) = pre ++ rest)
    (hpre : ∀ x ∈ pre, S.boxAt (S.slot S.head x) = none) :
    ∃ m, Reaches cs (S, .dequeue .loadHead) ((S.ticks 2).ticks m, .dequeue (DeqPc.scanNext S.head rest)) := by
  obtain ⟨m, hm⟩ := @Reaches.deqScan V cs S.head rest pre (S.ticks 2) hpre
  have hstart := @Reaches.deqStart V cs S
  rw [hord] at hstart
  exact ⟨m, hstart.trans hm⟩

/-- `try_dequeue` finds the item `p` in slot `j` of `head`: the exchange takes it, and `dequeue`
    returns it. Fewer than `k` items of the queue are older. -/
theorem Live.dequeue_take {S : Shared V} (hl : Live k (S, .dequeue .loadHead)) (hc : S.Calm)
    {j m : Nat} {rest : List Nat} (hj : (S.boxAt (S.slot S.head j)).isSome) (hjk : j < S.k)
    (hr : Reaches cs (S, .dequeue .loadHead) ((S.ticks 2).ticks m, .dequeue (.scan S.head j rest))) :
    ∃ F r, Reaches cs (S, .dequeue .loadHead) (F, .dequeued r) ∧ F.Calm ∧
      RelaxedStep k S.pending (.dequeue r) F.pending := by
  have hs : S.Shape := hl.shape
  have hF : S.tail ≠ S.freshSeg := by
    have := (hs.seg_fresh _ (hs.chain_seg _ hs.tail_mem)).2
    unfold freshSeg; omega
  have h₁ := hr.trans (@Reaches.deqFound V cs ((S.ticks 2).ticks m) j (S.slot S.head j) rest hj rfl
    hc.tail_next hF)
  generalize hT : (if ((S.ticks 2).ticks m).head = ((S.ticks 2).ticks m).tail then
    ((S.ticks 2).ticks m).grow.ticks 9 else ((S.ticks 2).ticks m).ticks 4) = T at h₁
  have hlT := hl.reaches h₁
  have hTs : T.Shape := hlT.shape
  -- what `try_dequeue` changed up to the exchange: at most a new segment behind `tail`
  obtain ⟨hTr, hTslot, hTinv, hTret, hTtn, hTbox⟩ : Retains S T ∧ T.slot S.head j = S.slot S.head j ∧
      T.hist.invokedAt = S.hist.invokedAt ∧ T.hist.returnedAt = S.hist.returnedAt ∧
      T.nextOf T.tail = 0 ∧ ∀ a, (T.boxAt a).isSome → (S.boxAt a).isSome := by
    subst hT
    split_ifs at hTs ⊢
    · have hhF : S.head ≠ S.freshSeg := by
        have := (hs.seg_fresh _ (hs.chain_seg _ hs.head_mem)).2
        unfold freshSeg; omega
      refine ⟨(retains_ticks 2).trans ((retains_ticks m).trans
        ((((hs.ticks 2).ticks m).retains_grow (Shape.of_ticks hTs)).trans (retains_ticks 9))),
        @grow_slot_ne V ((S.ticks 2).ticks m) _ hhF j, rfl, rfl, @grow_tail_next V ((S.ticks 2).ticks m) hF,
        fun a h => ?_⟩
      rw [boxAt_ticks, grow_boxAt] at h
      split_ifs at h
      · cases h
      · exact h
    · exact ⟨(retains_ticks 2).trans ((retains_ticks m).trans (retains_ticks 4)), rfl, rfl, rfl,
        hc.tail_next, fun _ h => h⟩
  -- the exchange and the box's emptying
  have h₂ := h₁.trans (@Reaches.deqTake V cs T _ j _ hTslot)
  have hok : T.Below S.head ∧ T.IsBox (S.slot S.head j) := hlT.ok
  refine ⟨_, _, h₂, ?_⟩
  have := hc.take hs hTs hlT.timeline (hl.reaches h₂).shape hTr hTinv hTret hTtn hTbox
    (hlT.k_eq.trans hl.k_eq.symm) hjk rfl hTslot hok.1 hj rfl
  rwa [hl.k_eq] at this

/-- `find_item` finds no item in `head`. -/
theorem Live.dequeue_empty {S : Shared V} (hall : ∀ j < S.k, S.boxAt (S.slot S.head j) = none) :
    ∃ m, Reaches cs (S, .dequeue .loadHead) ((S.ticks 2).ticks m, .dequeue (.loadTail S.head none)) :=
  Live.dequeue_scan (List.append_nil _).symm fun x hx =>
    hall x (List.mem_range.mp ((S.shuffle_perm _).mem_iff.mp hx))

/-- No item in `head`, and `head.next` is null: the queue is empty, and `dequeue` returns
    `None`. -/
theorem Live.dequeue_none {S : Shared V} (hl : Live k (S, .dequeue .loadHead)) (hc : S.Calm)
    (hall : ∀ j < S.k, S.boxAt (S.slot S.head j) = none) (hz : S.nextOf S.head = 0) :
    ∃ F, Reaches cs (S, .dequeue .loadHead) (F, .dequeued none) ∧ F.Calm ∧
      RelaxedStep k S.pending (.dequeue none) F.pending := by
  have hs : S.Shape := hl.shape
  obtain ⟨m, hm⟩ := @Live.dequeue_empty V cs S hall
  have h := hm.trans (@Reaches.deqNone V cs ((S.ticks 2).ticks m) hz)
  have hnil : S.pending = [] := by
    have : S.pendingBoxes = [] := hs.pendingBoxes_eq List.Pairwise.nil fun a => by
      refine iff_of_false (fun ha => ?_) (List.not_mem_nil a)
      obtain ⟨hb, hh⟩ := pending_eq_true.mp ha
      obtain ⟨x, hx, hle, hax⟩ := hs.mem_held.mp hh
      have hxh : x = S.head := Nat.le_antisymm (hs.linked.le_of_next_eq_zero hs.head_mem hz hx) hle
      subst hxh
      rw [@Shape.forall_segData V S hs S.head hs.head_mem (fun x => S.boxAt x = none) hall a hax] at hb
      cases hb
    rw [pending, this]; rfl
  refine ⟨_, h, hc.of_hist hc.tail_next rfl rfl fun _ h => h, ?_⟩
  have hF : (((S.ticks 2).ticks m).ticks 3).pending = S.pending :=
    ((retains_ticks 2).trans ((retains_ticks m).trans (retains_ticks 3))).pending_eq hs
      (((hs.ticks 2).ticks m).ticks 3)
  rw [hF, hnil]
  exact .dequeueNone

/-- No item in `head`, and `head.next` is not null: `advance_head` moves `head` past the segment,
    the queue is the same, and the dequeue starts again one segment closer to `tail`. -/
theorem Live.dequeue_advance {S : Shared V} (hl : Live k (S, .dequeue .loadHead)) (hc : S.Calm)
    (hall : ∀ j < S.k, S.boxAt (S.slot S.head j) = none) (hz : S.nextOf S.head ≠ 0) :
    ∃ A, Reaches cs (S, .dequeue .loadHead) (A, .dequeue .loadHead) ∧ A.Calm ∧
      A.pending = S.pending ∧ A.tail - A.head < S.tail - S.head := by
  have hs : S.Shape := hl.shape
  obtain ⟨m, hm⟩ := @Live.dequeue_empty V cs S hall
  have ht : S.tail ≠ S.head := fun h => hz (h ▸ hc.tail_next)
  have h := hm.trans (@Reaches.deqAdvance V cs ((S.ticks 2).ticks m) hz ht)
  have hA := Shape.of_ticks (hl.reaches h).shape
  have hnext := hs.linked.next_mem hs.head_mem hz
  refine ⟨_, h, hc.of_hist ?_ rfl rfl fun _ h => h,
    (((retains_ticks 2).trans ((retains_ticks m).trans
      ((((hs.ticks 2).ticks m).retains_advance hA hz
        (@Shape.forall_segData V S hs S.head hs.head_mem (fun x => S.boxAt x = none) hall)).trans
        (retains_ticks 10)))).pending_eq hs (hl.reaches h).shape), ?_⟩
  · simpa only [nextOf_ticks, nextOf_setDeleted] using hc.tail_next
  · have := hs.head_le_tail
    show S.tail - S.nextOf S.head < S.tail - S.head
    omega

/-- `dequeue`'s loop, from a calm memory whose `head` is fewer than `d` links behind `tail`: the
    call returns, to a calm memory, as `RelaxedStep` allows. -/
theorem Live.dequeue_loop : ∀ d {S : Shared V}, S.tail - S.head < d → Live k (S, .dequeue .loadHead) →
    S.Calm → ∃ F r, Reaches cs (S, .dequeue .loadHead) (F, .dequeued r) ∧ F.Calm ∧
      RelaxedStep k S.pending (.dequeue r) F.pending
  | 0, _, hd, _, _ => absurd hd (Nat.not_lt_zero _)
  | d + 1, S, hd, hl, hc => by
    by_cases hitem : ∃ j < S.k, (S.boxAt (S.slot S.head j)).isSome
    · -- the shuffled order, up to the first slot holding an item
      obtain ⟨j₀, hj₀, hi₀⟩ := hitem
      have hperm := S.shuffle_perm (cs (S.hist.clock + 1))
      obtain ⟨j, hj⟩ := Option.isSome_iff_exists.mp (List.find?_isSome.mpr
        ⟨j₀, hperm.mem_iff.mpr (List.mem_range.mpr hj₀), hi₀⟩ :
          ((S.shuffle (cs (S.hist.clock + 1))).find? fun j => (S.boxAt (S.slot S.head j)).isSome).isSome)
      obtain ⟨hjs, pre, rest, hsplit, hpre⟩ := List.find?_eq_some.mp hj
      have hjk : j < S.k := List.mem_range.mp
        (hperm.mem_iff.mp (hsplit ▸ List.mem_append_right _ (List.mem_cons_self _ _)))
      obtain ⟨m, hm⟩ := Live.dequeue_scan hsplit fun x hx => by simpa using hpre x hx
      exact hl.dequeue_take hc hjs hjk hm
    · have hall : ∀ j < S.k, S.boxAt (S.slot S.head j) = none := fun j hj =>
        Option.not_isSome_iff_eq_none.mp fun h => hitem ⟨j, hj, h⟩
      by_cases hz : S.nextOf S.head = 0
      · obtain ⟨F, h, hcF, hstep⟩ := hl.dequeue_none hc hall hz
        exact ⟨F, none, h, hcF, hstep⟩
      · obtain ⟨A, hA, hcA, hpA, hlt⟩ := hl.dequeue_advance hc hall hz
        obtain ⟨F, r, hF, hcF, hstep⟩ := dequeue_loop d (by omega) (hl.reaches hA) hcA
        exact ⟨F, r, hA.trans hF, hcF, hpA ▸ hstep⟩

/-- `dequeue()` on a calm memory: the call returns, to a calm memory, as `RelaxedStep` allows. -/
theorem Live.dequeue {s : Shared V} (hl : Live k (s.tick, .dequeue .loadHead)) (hc : s.Calm)
    (hs : s.Shape) :
    ∃ F r, Reaches cs (s.tick, .dequeue .loadHead) (F, .dequeued r) ∧ F.Calm ∧
      RelaxedStep k s.pending (.dequeue r) F.pending := by
  have hp : s.tick.pending = s.pending := retains_tick.pending_eq hs hl.shape
  rw [← hp]
  exact Live.dequeue_loop _ (Nat.lt_succ_self _) hl (hc.of_hist hc.tail_next rfl rfl fun _ h => h)

/-! ## Calls one after another -/

/-- Between two calls of thread 0 running alone: a reachable state, thread 0 out of a call, and
    a calm memory. -/
structure Between (k : Nat) (s : QState V) : Prop where
  reachable : Reachable k s
  ready : (s.threads 0).Ready = true
  calm : s.sh.Calm

/-- `SegQueueOld::new(k)` holds no item and has run no call. -/
theorem Between.new (k : Nat) : Between k (SegQueueOld.new V k) := by
  have hitem : ∀ a, ¬ (SegQueueOld.new V k).sh.IsItem a := fun a h => by cases h
  refine ⟨⟨[], rfl⟩, rfl, ⟨?_, fun a h => ?_, fun a h => absurd h (hitem a),
    fun a _ h => absurd h (hitem a)⟩⟩
  · simp [SegQueueOld.new, nextOf, Shared.newSegment, Shared.empty, Shared.freshSeg]
  · rw [boxAt_new] at h
    cases h

theorem pending_new (k : Nat) : (SegQueueOld.new V k).sh.pending = [] := by
  have hp : (SegQueueOld.new V k).sh.pendingBoxes = [] := List.filter_eq_nil_iff.mpr fun a _ => by
    simp [Pending, boxAt_new]
  rw [pending, hp]
  rfl

/-- Thread 0 makes the call `op` from a state between calls: the call returns, to a state between
    calls, as `RelaxedStep` allows. -/
theorem Between.call (hk : 1 ≤ k) (hcs : ∃ N, ∀ n, N ≤ n → (cs n).spurious = false) {s : QState V}
    (hb : Between k s) (op : Op V) :
    ∃ n s' c, (s.invoke op).bind (QState.solo cs n) = some s' ∧
      Thread.returned op (s'.threads 0) = some c ∧ c.op = op ∧ Between k s' ∧
      RelaxedStep k s.sh.pending c s'.sh.pending := by
  have hi := hb.reachable.inv
  cases op with
  | enqueue v =>
    have hx : s.exec (.enqueue 0 v) = some ⟨(s.sh.invokeEnqueue v).tick,
        store s.threads 0 (.enqueue s.sh.bound .loadTail)⟩ := by
      simp only [QState.exec, hb.ready, if_true]
    have hl : Live k ((s.sh.invokeEnqueue v).tick, .enqueue s.sh.bound .loadTail) :=
      ⟨_, store_same .., hb.reachable.exec hx⟩
    obtain ⟨F, hr, hcF, hpF⟩ := hl.enqueue hk hcs hb.calm hi.shape hi.timeline
    obtain ⟨n, hn⟩ := hr.solo _ (store_same ..)
    refine ⟨n, _, .enqueue v, by rw [QState.invoke, hx, Option.some_bind, hn], by simp [Thread.returned], rfl,
      ⟨(hb.reachable.exec hx).solo hn, by simp [Thread.Ready], hcF⟩, ?_⟩
    rw [hpF]
    exact .enqueue _ _
  | dequeue =>
    have hx : s.exec (.dequeue 0) = some ⟨s.sh.tick, store s.threads 0 (.dequeue .loadHead)⟩ := by
      simp only [QState.exec, hb.ready, if_true]
    have hl : Live k (s.sh.tick, .dequeue .loadHead) := ⟨_, store_same .., hb.reachable.exec hx⟩
    obtain ⟨F, r, hr, hcF, hstep⟩ := hl.dequeue hb.calm hi.shape
    obtain ⟨n, hn⟩ := hr.solo _ (store_same ..)
    exact ⟨n, _, .dequeue r, by rw [QState.invoke, hx, Option.some_bind, hn], by simp [Thread.returned], rfl,
      ⟨(hb.reachable.exec hx).solo hn, by simp [Thread.Ready], hcF⟩, hstep⟩

/-- A call that returns after `n` steps: with `n` fuel or more `finish` finds the state it returns
    in, and with any fuel it finds no other. -/
theorem QState.bind_finish {o : Option (QState V)} {s' : QState V} {n : Nat}
    (h : o.bind (QState.solo cs n) = some s') (hr : (s'.threads 0).Ready = true) :
    (∀ fuel, n ≤ fuel → o.bind (QState.finish cs fuel) = some s') ∧
      ∀ fuel s'', o.bind (QState.finish cs fuel) = some s'' → s'' = s' := by
  obtain ⟨s₀, rfl, h⟩ := Option.bind_eq_some.mp h
  refine ⟨fun fuel hn => QState.finish_of_solo h hr hn, fun fuel s'' h'' => ?_⟩
  obtain ⟨m, hm, hr''⟩ := QState.solo_of_finish (s := s₀) h''
  exact QState.solo_unique hm h hr'' hr

/-- From a state between calls, thread 0 makes the calls `ops` in turn, given enough fuel. -/
theorem Between.calls_isSome (hk : 1 ≤ k) (hcs : ∃ N, ∀ n, N ≤ n → (cs n).spurious = false) (ops : List (Op V)) :
    ∀ {s : QState V}, Between k s → ∃ N, ∀ fuel, N ≤ fuel → (s.calls cs fuel ops).isSome := by
  induction ops with
  | nil => exact fun _ => ⟨0, fun _ _ => rfl⟩
  | cons op ops ih =>
    intro s hb
    obtain ⟨n, s', c, h, hc, -, hb', -⟩ := hb.call hk hcs op
    obtain ⟨N, hN⟩ := ih hb'
    refine ⟨max n N, fun fuel hf => ?_⟩
    obtain ⟨rest, hrest⟩ := Option.isSome_iff_exists.mp (hN fuel ((le_max_right n N).trans hf))
    simp [QState.calls, (QState.bind_finish h hb'.ready).1 fuel ((le_max_left n N).trans hf), hc, hrest]

/-- The calls thread 0 makes in turn from a state between calls are answered as a k-relaxed FIFO
    queue holding the state's queue would answer them. -/
theorem Between.calls_relaxed (hk : 1 ≤ k) (hcs : ∃ N, ∀ n, N ≤ n → (cs n).spurious = false) (ops : List (Op V)) :
    ∀ {s : QState V} {fuel : Nat} {calls : List (Call V)}, Between k s →
      s.calls cs fuel ops = some calls → calls.map Call.op = ops ∧ RelaxedFifo k s.sh.pending calls := by
  induction ops with
  | nil => intro s fuel calls _ h; cases h; exact ⟨rfl, .nil _⟩
  | cons op ops ih =>
    intro s fuel calls hb h
    obtain ⟨n, s', c, hs', hc, hop, hb', hstep⟩ := hb.call hk hcs op
    simp only [QState.calls, Option.bind_eq_bind] at h
    obtain ⟨s'', h'', h⟩ := Option.bind_eq_some.mp h
    obtain ⟨c', hc', h⟩ := Option.bind_eq_some.mp h
    obtain ⟨rest, hrest, hcalls⟩ := Option.bind_eq_some.mp h
    obtain rfl := (QState.bind_finish hs' hb'.ready).2 fuel s'' h''
    obtain rfl : c' = c := Option.some_inj.mp (hc'.symm.trans hc)
    cases hcalls
    obtain ⟨hops, hrel⟩ := ih hb' hrest
    exact ⟨by simp [hop, hops], .cons hstep hrel⟩

/-- One thread's calls on `SegQueueOld::new(k)`, whatever the shuffles and with spurious failures
    of the exchange up to some clock: with enough fuel every call returns, and the answers are ones
    a k-relaxed FIFO queue, empty at the start, may give. -/
theorem sequential_relaxed_fifo (hk : 1 ≤ k) (hcs : ∃ N, ∀ n, N ≤ n → (cs n).spurious = false) (ops : List (Op V)) :
    (∃ fuel calls, (SegQueueOld.new V k).calls cs fuel ops = some calls) ∧
      ∀ fuel calls, (SegQueueOld.new V k).calls cs fuel ops = some calls →
        calls.map Call.op = ops ∧ RelaxedFifo k [] calls := by
  obtain ⟨N, hN⟩ := (Between.new k).calls_isSome hk hcs ops
  refine ⟨⟨N, Option.isSome_iff_exists.mp (hN N le_rfl)⟩, fun fuel calls h => ?_⟩
  rw [← pending_new k]
  exact (Between.new k).calls_relaxed hk hcs ops h

/-- The exchange of the first enqueue, at clock 6, fails spuriously and its try starts again. -/
theorem sequential_relaxed_fifo_two :
    (1 ≤ 2 ∧ ∃ N, ∀ n, N ≤ n → (Choice.mk [1, 0] (decide (n < 8))).spurious = false) ∧
      ((∃ fuel calls, (SegQueueOld.new Nat 2).calls (fun n => ⟨[1, 0], decide (n < 8)⟩) fuel
          [.enqueue 3, .enqueue 4, .dequeue, .dequeue, .dequeue] = some calls) ∧
        ∀ fuel calls, (SegQueueOld.new Nat 2).calls (fun n => ⟨[1, 0], decide (n < 8)⟩) fuel
          [.enqueue 3, .enqueue 4, .dequeue, .dequeue, .dequeue] = some calls →
          calls.map Call.op = [.enqueue 3, .enqueue 4, .dequeue, .dequeue, .dequeue] ∧
            RelaxedFifo 2 [] calls) :=
  have hcs : ∃ N, ∀ n, N ≤ n → (Choice.mk [1, 0] (decide (n < 8))).spurious = false :=
    ⟨8, fun _ hn => decide_eq_false (Nat.not_lt.mpr hn)⟩
  ⟨⟨by decide, hcs⟩, sequential_relaxed_fifo (by decide) hcs _⟩

/-- The first shuffle tries slot 0 first and every later one slot 1 first: the second item, in
    slot 1, comes out first. -/
example : (SegQueueOld.new Nat 2).calls (fun n => ⟨if n < 3 then [0, 1] else [1, 0], false⟩) 40
    [.enqueue 3, .enqueue 4, .dequeue, .dequeue, .dequeue] =
      some [.enqueue 3, .enqueue 4, .dequeue (some 4), .dequeue (some 3), .dequeue none] := by
  decide

end Rustcurrent.SegQueue
