import Rustcurrent.SegQueue.Sequential
import Rustcurrent.SegQueue.Emptiness
import Rustcurrent.SegQueue.Conservation

/-!
# A thread running alone returns

`SegQueueOld` is obstruction-free: from any reachable state, whatever the other threads left half
done, a thread that runs alone returns from its call, whatever the shuffles, as long as no
`compare_exchange_weak` fails spuriously and a segment has a slot (`alone_returns`).

No access of one try is taken twice: `EnqPc.rank` and `DeqPc.rank` count down along every step
inside a try, so a thread running alone gets back to the start of a try, or returns
(`Live.enqueue_try`, `Live.dequeue_try`). From the start of a try:
* `try_enqueue` stores its item when `tail` has a free slot; otherwise `advance_tail` links a
  fresh segment, whose slots are free, or swings `tail` to the next segment;
* `try_dequeue` takes the item it finds in `head`, returns `None` when `head` holds none and has no
  next segment, and otherwise moves `head` to the next segment.
A retry moves `tail` or `head` up towards `bound`, which only a fresh segment moves, so the retry
loops of `enqueue` and `dequeue` end.

The threads of a state are interchangeable (`Reachable.rename`), so the facts `Live` states of
thread 0 hold of any thread.
-/

namespace Rustcurrent.SegQueue

variable {V : Type}

/-! ## Renaming the threads -/

/-- The threads renamed by `σ`: thread `x` of the new state is thread `σ x` of the old one. -/
def QState.rename (σ : Equiv.Perm Nat) (s : QState V) : QState V := ⟨s.sh, s.threads ∘ σ⟩

/-- The same action, made by the new name of its thread. -/
def Action.rename (σ : Equiv.Perm Nat) : Action V → Action V
  | .enqueue u v => .enqueue (σ.symm u) v
  | .dequeue u => .dequeue (σ.symm u)
  | .step u c => .step (σ.symm u) c

theorem store_comp_perm {α : Type} (f : Nat → α) (σ : Equiv.Perm Nat) (u : Nat) (x : α) :
    store (f ∘ σ) (σ.symm u) x = store f u x ∘ σ := by
  funext y
  simp only [store, Function.comp_apply, Equiv.eq_symm_apply]

namespace QState

variable (σ : Equiv.Perm Nat)

theorem threads_rename (s : QState V) (u : Nat) : (s.rename σ).threads (σ.symm u) = s.threads u := by
  simp only [rename, Function.comp_apply, Equiv.apply_symm_apply]

/-- Renaming the threads commutes with every action. -/
theorem exec_rename (s : QState V) (a : Action V) :
    (s.rename σ).exec (a.rename σ) = (s.exec a).map (rename σ) := by
  cases a with
  | enqueue u v | dequeue u =>
    simp only [exec, Action.rename, threads_rename]
    split_ifs <;> simp [rename, store_comp_perm]
  | step u c =>
    have : (s.rename σ).step (σ.symm u) c = s.step u c := by simp only [step, threads_rename]; rfl
    simp only [exec, Action.rename, this]
    cases s.step u c <;> simp [rename, store_comp_perm]

theorem run_rename (s : QState V) (as : List (Action V)) :
    (s.rename σ).run (as.map (Action.rename σ)) = (s.run as).map (rename σ) := by
  induction as generalizing s with
  | nil => rfl
  | cons a as ih =>
    simp only [List.map_cons, run, exec_rename]
    cases s.exec a <;> simp [ih]

end QState

theorem Reachable.rename {k : Nat} {s : QState V} (h : Reachable k s) (σ : Equiv.Perm Nat) :
    Reachable k (s.rename σ) :=
  let ⟨as, hr⟩ := h
  ⟨as.map (Action.rename σ), by
    rw [show SegQueueOld.new V k = (SegQueueOld.new V k).rename σ from rfl, QState.run_rename, hr]
    rfl⟩

/-- Any thread of a reachable state is thread 0 of one, once threads `0` and `t` swap names. -/
theorem Reachable.live {k : Nat} {s : QState V} (h : Reachable k s) (t : Nat) :
    Live k (s.sh, s.threads t) :=
  ⟨s.threads ∘ Equiv.swap 0 t, by simp, h.rename _⟩

/-! ## Thread `t` alone -/

/-- Thread `t` takes `n` steps of the machine, each with the choice `cs` gives at the clock. -/
def QState.alone (cs : Nat → Choice) (t : Nat) : Nat → QState V → Option (QState V)
  | 0, s => some s
  | n + 1, s => (s.exec (.step t (cs s.sh.hist.clock))).bind (QState.alone cs t n)

variable {cs : Nat → Choice}

/-- One step of thread `t` in the machine is its `soloStep`, the other threads left as they are. -/
theorem QState.exec_step_alone {sh : Shared V} {f : Nat → Thread V} {t : Nat} :
    (⟨sh, f⟩ : QState V).exec (.step t (cs sh.hist.clock)) =
      (soloStep cs sh (f t)).map fun r => ⟨r.1, store f t r.2⟩ := by
  simp only [QState.exec, QState.step]
  cases f t <;> rfl

/-- Steps of a thread alone are steps of the machine by thread `t`. -/
theorem Reaches.alone {x z : Shared V × Thread V} (h : Reaches cs x z) (t : Nat) :
    ∀ f : Nat → Thread V, f t = x.2 →
      ∃ n, (⟨x.1, f⟩ : QState V).alone cs t n = some ⟨z.1, store f t z.2⟩ := by
  induction h with
  | refl x => exact fun f hf => ⟨0, by rw [store_self hf]; rfl⟩
  | step hxy _ ih =>
    intro f hf
    obtain ⟨n, hn⟩ := ih (store f t _) (store_same ..)
    refine ⟨n + 1, ?_⟩
    simp only [QState.alone, QState.exec_step_alone, hf, hxy, Option.map_some', Option.some_bind]
    rw [hn, store_store_same]

/-! ## The accesses of one try -/

/-- The accesses `advance_tail` has left at most. -/
def TailPc.rank : TailPc → Nat
  | .loadTail _ => 5
  | .loadNext _ => 4
  | .recheck .. => 3
  | .link .. => 2
  | .swingNew .. | .swing .. => 1

/-- The accesses the current try of `enqueue` has left at most, when a segment has `k` slots;
    `0` at the start of a try. -/
def EnqPc.rank (k : Nat) : EnqPc → Nat
  | .loadTail => 0
  | .checkTail _ => 2 * k + 9
  | .scan _ _ rest => 2 * rest.length + 9
  | .scanRead _ _ _ rest => 2 * rest.length + 8
  | .recheck .. => 7
  | .cas .. => 6
  | .commitLoad .. => 5
  | .commitHead .. => 4
  | .commitDeleted .. => 3
  | .commitSelf .. | .commitDeleted2 .. => 2
  | .commitUndo .. => 1
  | .advanceTail pc => pc.rank

/-- The accesses the current try of `dequeue` has left at most, when a segment has `k` slots;
    `0` at the start of a try. -/
def DeqPc.rank (k : Nat) : DeqPc → Nat
  | .loadHead => 0
  | .checkHead _ => 2 * k + 15
  | .scan _ _ rest => 2 * rest.length + 14
  | .scanRead _ _ _ rest => 2 * rest.length + 13
  | .loadTail .. => 12
  | .checkHead2 .. => 11
  | .loadNext _ => 10
  | .headLoad _ => 9
  | .headLoadTail _ => 8
  | .headTailNext .. => 7
  | .headNext .. => 6
  | .headRecheck .. => 5
  | .headCheckTail .. => 4
  | .headSwingTail .. => 3
  | .advanceTail _ _ _ pc => pc.rank + 2
  | .headSwing .. | .cas .. => 2
  | .headDelete _ | .take _ => 1

theorem TailPc.rank_pos (pc : TailPc) : 0 < pc.rank := by cases pc <;> simp [rank]

theorem EnqPc.rank_scanNext (k tl : Nat) (l : List Nat) : (EnqPc.scanNext tl l).rank k < 2 * l.length + 8 := by
  cases l <;> simp only [scanNext, rank, TailPc.rank, List.length_nil, List.length_cons] <;> omega

theorem DeqPc.rank_scanNext (k h : Nat) (l : List Nat) : (DeqPc.scanNext h l).rank k < 2 * l.length + 13 := by
  cases l <;> simp only [scanNext, rank, List.length_nil, List.length_cons] <;> omega

namespace Shared

variable {s : Shared V}

theorem shuffle_length (s : Shared V) (c : Choice) : (s.shuffle c).length = s.k := by
  rw [(s.shuffle_perm c).length_eq, List.length_range]

/-- A step of `advance_tail` that does not return leads to an access of lower rank. -/
theorem advanceTail_rank (pc : TailPc) {pc' : TailPc} (h : (s.advanceTail pc).2 = some pc') :
    pc'.rank < pc.rank := by
  cases pc <;> simp only [advanceTail] at h <;> (try split_ifs at h) <;> cases h <;>
    simp only [TailPc.rank] <;> decide

/-- A step inside a try of `enqueue` returns, or leads to an access of lower rank. -/
theorem enqStep_rank {b : Nat} {c : Choice} {pc : EnqPc} (hpc : pc ≠ .loadTail) :
    (s.enqStep b c pc).2 = .enqueued ∨
      ∃ pc', (s.enqStep b c pc).2 = .enqueue b pc' ∧ pc'.rank s.k < pc.rank s.k := by
  cases pc with
  | loadTail => exact absurd rfl hpc
  | checkTail tl =>
    simp only [enqStep]
    split_ifs
    · exact .inr ⟨_, rfl, (EnqPc.rank_scanNext _ _ _).trans_le (by rw [shuffle_length]; exact Nat.le_succ _)⟩
    · exact .inr ⟨_, rfl, Nat.succ_pos _⟩
  | scanRead tl i p rest =>
    simp only [enqStep]
    split
    · exact .inr ⟨_, rfl, EnqPc.rank_scanNext _ _ _⟩
    · exact .inr ⟨_, rfl, show 7 < 2 * rest.length + 8 by omega⟩
  | advanceTail pc =>
    simp only [enqStep]
    split
    · next pc' h => exact .inr ⟨_, rfl, advanceTail_rank pc (congrArg Prod.snd h)⟩
    · exact .inr ⟨_, rfl, TailPc.rank_pos pc⟩
  | _ => simp only [enqStep]; (try split_ifs) <;> first | exact .inl rfl | exact .inr ⟨_, rfl, by simp only [EnqPc.rank]; omega⟩

/-- A step inside a try of `dequeue` returns, or leads to an access of lower rank. -/
theorem deqStep_rank {c : Choice} {pc : DeqPc} (hpc : pc ≠ .loadHead) :
    (∃ r, (s.deqStep c pc).2 = .dequeued r) ∨
      ∃ pc', (s.deqStep c pc).2 = .dequeue pc' ∧ pc'.rank s.k < pc.rank s.k := by
  cases pc with
  | loadHead => exact absurd rfl hpc
  | checkHead h =>
    simp only [deqStep]
    split_ifs
    · exact .inr ⟨_, rfl, (DeqPc.rank_scanNext _ _ _).trans_le
        (by rw [shuffle_length]; show _ ≤ 2 * s.k + 15; omega)⟩
    · exact .inr ⟨_, rfl, Nat.succ_pos _⟩
  | scanRead h i p rest =>
    simp only [deqStep]
    split
    · exact .inr ⟨_, rfl, show 12 < 2 * rest.length + 13 by omega⟩
    · exact .inr ⟨_, rfl, DeqPc.rank_scanNext _ _ _⟩
  | advanceTail h i p pc =>
    simp only [deqStep]
    split
    · next pc' e => exact .inr ⟨_, rfl, Nat.add_lt_add_right (advanceTail_rank pc (congrArg Prod.snd e)) 2⟩
    · exact .inr ⟨_, rfl, show 2 < pc.rank + 2 by have := TailPc.rank_pos pc; omega⟩
  | _ =>
    simp only [deqStep]
    (repeat' split) <;> first | exact .inl ⟨_, rfl⟩ | exact .inr ⟨_, rfl, by simp only [DeqPc.rank, TailPc.rank]; omega⟩

/-! ## The paths of a try, from its start -/

theorem advanceTail_recheck_swing {next : Nat} (hn : next ≠ 0) :
    s.advanceTail (.recheck s.tail next) = (s, some (.swing s.tail next)) := by
  simp [advanceTail, hn]

theorem advanceTail_swing {n : Nat} : s.advanceTail (.swing s.tail n) = ({ s with tail := n }, none) := by
  simp [advanceTail, casTail]

theorem deqStep_headRecheck_self {c : Choice} {tl tn hn : Nat} (htl : tl = s.head) (htn : tn ≠ 0) :
    s.deqStep c (.headRecheck s.head tl tn hn) = (s, .dequeue (.headCheckTail s.head hn tl tn)) := by
  simp [deqStep, htl, htn]

theorem deqStep_headCheckTail {c : Choice} {h hn tn : Nat} :
    s.deqStep c (.headCheckTail h hn s.tail tn) = (s, .dequeue (.headSwingTail h hn s.tail tn)) :=
  if_pos rfl

theorem deqStep_headSwingTail {c : Choice} {h hn tn : Nat} :
    s.deqStep c (.headSwingTail h hn s.tail tn) = ({ s with tail := tn }, .dequeue (.headSwing h hn)) := by
  simp [deqStep, casTail]

/-- The shuffled order, up to the first slot that satisfies `P`, when a slot does. -/
theorem shuffle_find (s : Shared V) (c : Choice) {P : Nat → Bool} (h : ∃ j < s.k, P j = true) :
    ∃ j pre rest, s.shuffle c = pre ++ j :: rest ∧ P j = true ∧ ∀ x ∈ pre, P x = false := by
  obtain ⟨j₀, hj₀, hP⟩ := h
  obtain ⟨j, hj⟩ := Option.isSome_iff_exists.mp (List.find?_isSome.mpr
    ⟨j₀, (s.shuffle_perm c).mem_iff.mpr (List.mem_range.mpr hj₀), hP⟩)
  obtain ⟨hjP, pre, rest, hsplit, hpre⟩ := List.find?_eq_some.mp hj
  exact ⟨j, pre, rest, hsplit, hjP, fun x hx => by simpa using hpre x hx⟩

/-- `tail` is below `bound`, and so is not where the next segment goes. -/
theorem Shape.tail_lt (hs : s.Shape) : s.tail < s.bound :=
  (hs.seg_fresh _ (hs.chain_seg _ hs.tail_mem)).2

theorem Shape.head_lt (hs : s.Shape) : s.head < s.bound :=
  (hs.seg_fresh _ (hs.chain_seg _ hs.head_mem)).2

end Shared

namespace Reaches

open Shared

/-- `find_empty_slot` finds an item in every slot of `tail`, and `advance_tail(tail)` swings
    `tail` to the segment after it. -/
theorem enqPass {S : Shared V} {b : Nat} (htn : S.nextOf S.tail ≠ 0)
    (hfull : ∀ j < S.k, (S.boxAt (S.slot S.tail j)).isSome) :
    ∃ A, Reaches cs (S, .enqueue b .loadTail) (A, .enqueue b .loadTail) ∧
      A.tail = S.nextOf S.tail ∧ A.bound = S.bound := by
  have hperm := S.shuffle_perm (cs (S.hist.clock + 1))
  obtain ⟨m, hm⟩ := @enqScan V cs b S.tail [] (S.shuffle (cs (S.hist.clock + 1))) (S.ticks 2)
    fun x hx => hfull x (List.mem_range.mp (hperm.mem_iff.mp hx))
  rw [List.append_nil] at hm
  exact ⟨_, (enqStart S b).trans (hm.trans ((enqTailLoad _ b).trans
    (.enqTail (advanceTail_recheck_swing htn) (.enqTail advanceTail_swing (.refl _))))), rfl, rfl⟩

/-- `try_dequeue` found the item `p` in slot `i` of `head`. When `head` is `tail`,
    `advance_tail(tail)` links a fresh segment or swings `tail`; either way the exchange finds `p`
    still in the slot. -/
theorem deqToCas {s : Shared V} {i p : Nat} (hp : s.slot s.head i = p) (hF : s.tail ≠ s.freshSeg)
    (hhF : s.head ≠ s.freshSeg) :
    ∃ T, Reaches cs (s, .dequeue (.checkHead2 s.head s.tail (some (i, p)))) (T, .dequeue (.cas s.head i p)) ∧
      T.slot s.head i = p := by
  by_cases hh : s.head = s.tail
  · have h₁ : Reaches cs (s, .dequeue (.checkHead2 s.head s.tail (some (i, p)))) _ :=
      .deq (deqStep_checkHead2_tail hh) (deqTailLoad s.tick s.head i p)
    by_cases hz : s.nextOf s.tail = 0
    · exact ⟨_, h₁.trans (@deqTailLink V cs (s.tick.ticks 2) _ _ _ _ hz hz hF),
        (@grow_slot_ne V (s.tick.ticks 2) _ hhF i).trans hp⟩
    · exact ⟨_, h₁.trans (.deqTail (advanceTail_recheck_swing hz) (.deqTail advanceTail_swing (.refl _))), hp⟩
  · exact ⟨_, .deq (deqStep_checkHead2_other hh) (.refl _), hp⟩

/-- `advance_head(head)` while `tail` is `head`: it swings `tail` to the next segment first. -/
theorem deqHeadBoth {s : Shared V} (ht : s.tail = s.head) (hz : s.nextOf s.head ≠ 0) :
    Reaches cs (s, .dequeue (.headLoadTail s.head))
      ({ s.ticks 5 with tail := s.nextOf s.tail }.tick, .dequeue (.headSwing s.head (s.nextOf s.head))) :=
  .deq deqStep_headLoadTail (.deq deqStep_headTailNext (.deq deqStep_headNext
    (.deq (@deqStep_headRecheck_self V (s.ticks 3) _ _ _ _ ht (show s.nextOf s.tail ≠ 0 from ht ▸ hz))
    (.deq (@deqStep_headCheckTail V (s.ticks 4) _ _ _ _) (.deq (@deqStep_headSwingTail V (s.ticks 5) _ _ _ _)
      (.refl _))))))

/-- `try_dequeue` found no item in `head` and `head.next` is not null: `advance_head(head)` moves
    `head` to the next segment, first swinging `tail` there when it is `head`. -/
theorem deqNext {s : Shared V} (hz : s.nextOf s.head ≠ 0) :
    ∃ A, Reaches cs (s, .dequeue (.loadTail s.head none)) (A, .dequeue .loadHead) ∧
      A.head = s.nextOf s.head ∧ A.bound = s.bound := by
  by_cases ht : s.tail = s.head
  · exact ⟨_, (deqHeadLoad hz).trans ((@deqHeadBoth V cs (s.ticks 4) ht hz).trans (deqHeadSwing _ _)),
      rfl, rfl⟩
  · exact ⟨_, deqAdvance hz ht, rfl, rfl⟩

end Reaches

/-! ## Each call returns -/

variable {k : Nat}

/-- The item of an enqueue at the start of a try holds its value: no dequeue took it. -/
theorem Live.enqueue_boxed {S : Shared V} {b : Nat} (hl : Live k (S, .enqueue b .loadTail)) :
    (S.boxAt b).isSome := by
  obtain ⟨f, hf : f 0 = .enqueue b .loadTail, hr⟩ := hl
  have hok : (f 0).Ok S := hr.inv.ok 0
  have hown : (f 0).Own S := hr.own.own 0
  rw [hf] at hok hown
  obtain ⟨v, hv⟩ := hr.own.owned.full b hok.1 hown.2
  simp [hv]

/-- Inside a try of `enqueue`, a thread running alone returns or gets back to the start of a
    try. -/
theorem Live.enqueue_try {b : Nat} : ∀ n {S : Shared V} {pc : EnqPc}, pc.rank k < n →
    Live k (S, .enqueue b pc) →
      ∃ F, Reaches cs (S, .enqueue b pc) (F, .enqueued) ∨ Reaches cs (S, .enqueue b pc) (F, .enqueue b .loadTail)
  | 0, _, _, hn, _ => absurd hn (Nat.not_lt_zero _)
  | n + 1, S, pc, hn, hl => by
    by_cases hpc : pc = .loadTail
    · exact ⟨S, .inr (hpc ▸ .refl _)⟩
    have hstep : soloStep cs S (.enqueue b pc) =
        some ((S.enqStep b (cs S.hist.clock) pc).1.tick, (S.enqStep b (cs S.hist.clock) pc).2) := rfl
    rcases Shared.enqStep_rank (s := S) (b := b) (c := cs S.hist.clock) hpc with he | ⟨pc', he, hlt⟩
    · rw [he] at hstep
      exact ⟨_, .inl (.step hstep (.refl _))⟩
    · rw [he] at hstep
      rw [hl.k_eq] at hlt
      obtain ⟨F, hF⟩ := Live.enqueue_try n (by omega) (hl.reaches (.step hstep (.refl _)))
      exact ⟨F, hF.imp (.step hstep) (.step hstep)⟩

/-- Inside a try of `dequeue`, a thread running alone returns or gets back to the start of a
    try. -/
theorem Live.dequeue_try : ∀ n {S : Shared V} {pc : DeqPc}, pc.rank k < n →
    Live k (S, .dequeue pc) →
      ∃ F, (∃ r, Reaches cs (S, .dequeue pc) (F, .dequeued r)) ∨ Reaches cs (S, .dequeue pc) (F, .dequeue .loadHead)
  | 0, _, _, hn, _ => absurd hn (Nat.not_lt_zero _)
  | n + 1, S, pc, hn, hl => by
    by_cases hpc : pc = .loadHead
    · exact ⟨S, .inr (hpc ▸ .refl _)⟩
    have hstep : soloStep cs S (.dequeue pc) =
        some ((S.deqStep (cs S.hist.clock) pc).1.tick, (S.deqStep (cs S.hist.clock) pc).2) := rfl
    rcases Shared.deqStep_rank (s := S) (c := cs S.hist.clock) hpc with ⟨r, he⟩ | ⟨pc', he, hlt⟩
    · rw [he] at hstep
      exact ⟨_, .inl ⟨r, .step hstep (.refl _)⟩⟩
    · rw [he] at hstep
      rw [hl.k_eq] at hlt
      obtain ⟨F, hF⟩ := Live.dequeue_try n (by omega) (hl.reaches (.step hstep (.refl _)))
      exact ⟨F, hF.imp (fun ⟨r, h⟩ => ⟨r, .step hstep h⟩) (.step hstep)⟩

/-- `enqueue`'s loop from the start of a try, with `tail` fewer than `d` addresses below
    `bound`: the item is stored and the call returns. -/
theorem Live.enqueue_retry (hk : 0 < k) (hcs : ∀ n, (cs n).spurious = false) :
    ∀ d {S : Shared V} {b : Nat}, S.bound - S.tail < d → Live k (S, .enqueue b .loadTail) →
      ∃ F, Reaches cs (S, .enqueue b .loadTail) (F, .enqueued)
  | 0, _, _, hd, _ => absurd hd (Nat.not_lt_zero _)
  | d + 1, S, b, hd, hl => by
    by_cases hfree : ∃ j < S.k, S.boxAt (S.slot S.tail j) = none
    · obtain ⟨F, hF, -⟩ := hl.enqueue_slot ⟨0, fun n _ => hcs n⟩ hl.enqueue_boxed hfree
      exact ⟨F, hF⟩
    have hfull : ∀ j < S.k, (S.boxAt (S.slot S.tail j)).isSome := fun j hj =>
      Option.isSome_iff_ne_none.mpr fun h => hfree ⟨j, hj, h⟩
    by_cases htn : S.nextOf S.tail = 0
    · -- `advance_tail` links a fresh segment, whose slots are free
      obtain ⟨n, hn⟩ := hl.enqueue_grow htn hfull
      have hl' := hl.reaches hn
      obtain ⟨F, hF, -⟩ := hl'.enqueue_slot ⟨0, fun n _ => hcs n⟩ hl'.enqueue_boxed
        (Shared.grow_free (by rw [Shared.k_ticks, hl.k_eq]; exact hk))
      exact ⟨F, hn.trans hF⟩
    · -- `advance_tail` swings `tail` one segment up
      have hs : S.Shape := hl.shape
      have hlt := (hs.linked.next_mem hs.tail_mem htn).2
      have hb := hs.tail_lt
      obtain ⟨A, hA, htA, hbA⟩ := @Reaches.enqPass V cs S b htn hfull
      obtain ⟨F, hF⟩ := enqueue_retry hk hcs d (by rw [htA, hbA]; omega) (hl.reaches hA)
      exact ⟨F, hA.trans hF⟩

/-- `try_dequeue` with an item in `head`: `find_item` finds one, the exchange takes it, and
    `dequeue` returns. -/
theorem Live.dequeue_item {S : Shared V} (hl : Live k (S, .dequeue .loadHead))
    (hitem : ∃ j < S.k, (S.boxAt (S.slot S.head j)).isSome) :
    ∃ F r, Reaches cs (S, .dequeue .loadHead) (F, .dequeued r) := by
  have hs : S.Shape := hl.shape
  obtain ⟨j, pre, rest, hsplit, hj, hpre⟩ :=
    S.shuffle_find (cs (S.hist.clock + 1)) (P := fun j => (S.boxAt (S.slot S.head j)).isSome) hitem
  obtain ⟨m, hm⟩ := Live.dequeue_scan hsplit fun x hx => by simpa using hpre x hx
  have hF : S.tail ≠ S.freshSeg := by have := hs.tail_lt; unfold Shared.freshSeg; omega
  have hhF : S.head ≠ S.freshSeg := by have := hs.head_lt; unfold Shared.freshSeg; omega
  obtain ⟨T, hT, hTp⟩ := @Reaches.deqToCas V cs (((S.ticks 2).ticks m).ticks 3) j _ rfl hF hhF
  exact ⟨_, _, hm.trans ((@Reaches.deqItem V cs ((S.ticks 2).ticks m) j rest hj).trans
    (hT.trans (Reaches.deqTake hTp)))⟩

/-- `dequeue`'s loop from the start of a try, with `head` fewer than `d` addresses below
    `bound`: the call returns. -/
theorem Live.dequeue_retry : ∀ d {S : Shared V}, S.bound - S.head < d → Live k (S, .dequeue .loadHead) →
    ∃ F r, Reaches cs (S, .dequeue .loadHead) (F, .dequeued r)
  | 0, _, hd, _ => absurd hd (Nat.not_lt_zero _)
  | d + 1, S, hd, hl => by
    by_cases hitem : ∃ j < S.k, (S.boxAt (S.slot S.head j)).isSome
    · exact hl.dequeue_item hitem
    have hall : ∀ j < S.k, S.boxAt (S.slot S.head j) = none := fun j hj =>
      Option.not_isSome_iff_eq_none.mp fun h => hitem ⟨j, hj, h⟩
    obtain ⟨m, hm⟩ := @Live.dequeue_empty V cs S hall
    by_cases hz : S.nextOf S.head = 0
    · exact ⟨_, none, hm.trans (Reaches.deqNone hz)⟩
    -- `advance_head` moves `head` one segment up
    have hs : S.Shape := hl.shape
    have hlt := (hs.linked.next_mem hs.head_mem hz).2
    have hb := hs.head_lt
    obtain ⟨A, hA, hhA, hbA⟩ := @Reaches.deqNext V cs ((S.ticks 2).ticks m) hz
    have hd' : A.bound - A.head < d := by
      rw [hhA, hbA]
      show S.bound - S.nextOf S.head < d
      omega
    obtain ⟨F, r, hF⟩ := dequeue_retry d hd' (hl.reaches (hm.trans hA))
    exact ⟨F, r, hm.trans (hA.trans hF)⟩

/-- A thread inside a call, running alone with no spurious failure, returns. -/
theorem Live.returns (hk : 0 < k) (hcs : ∀ n, (cs n).spurious = false) {x : Shared V × Thread V}
    (hl : Live k x) : ∃ z, Reaches cs x z ∧ z.2.Ready = true := by
  obtain ⟨S, th⟩ := x
  cases th with
  | enqueue b pc =>
    obtain ⟨F, hF | hF⟩ := Live.enqueue_try _ (Nat.lt_succ_self _) hl
    · exact ⟨_, hF, rfl⟩
    · obtain ⟨F', hF'⟩ := Live.enqueue_retry hk hcs _ (Nat.lt_succ_self _) (hl.reaches hF)
      exact ⟨_, hF.trans hF', rfl⟩
  | dequeue pc =>
    obtain ⟨F, ⟨r, hF⟩ | hF⟩ := Live.dequeue_try _ (Nat.lt_succ_self _) hl
    · exact ⟨_, hF, rfl⟩
    · obtain ⟨F', r, hF'⟩ := Live.dequeue_retry _ (Nat.lt_succ_self _) (hl.reaches hF)
      exact ⟨_, hF.trans hF', rfl⟩
  | _ => exact ⟨_, .refl _, rfl⟩

/-- Obstruction-freedom: from any reachable state, thread `t` running alone returns from its
    call within some number of steps, whatever the shuffles, as long as no
    `compare_exchange_weak` fails spuriously. -/
theorem alone_returns (hk : 0 < k) (hcs : ∀ n, (cs n).spurious = false) {s : QState V}
    (hr : Reachable k s) (t : Nat) :
    ∃ n s', s.alone cs t n = some s' ∧ (s'.threads t).Ready = true := by
  obtain ⟨z, hz, hready⟩ := (hr.live t).returns hk hcs
  obtain ⟨n, hn⟩ := hz.alone t s.threads rfl
  exact ⟨n, _, hn, by show (store s.threads t z.2 t).Ready = true; rw [store_same]; exact hready⟩

/-- After 46 actions of `strandTrace`, thread 1 is about to exchange its item into a slot and
    thread 3 is inside `advance_head`: thread 1 running alone returns. -/
theorem alone_returns_strand :
    ∃ s : QState Nat, Reachable 2 s ∧ (s.threads 1).Ready = false ∧ (s.threads 3).Ready = false ∧
      ∃ n s', s.alone (fun _ => ⟨[0, 1], false⟩) 1 n = some s' ∧ (s'.threads 1).Ready = true := by
  obtain ⟨s, hs, hp⟩ := @Reachable.of_run Nat 2 (strandTrace.take 46)
    (fun s => !(s.threads 1).Ready && !(s.threads 3).Ready) (by decide)
  simp only [Bool.and_eq_true, Bool.not_eq_true'] at hp
  exact ⟨s, hs, hp.1, hp.2, alone_returns (by decide) (fun _ => rfl) hs 1⟩

end Rustcurrent.SegQueue
