import Rustcurrent.HashMap.Tags

/-!
# `insert` is not wait-free

In the `None` arm of `insert`'s inner loop (lines 103-107) a failed `try_insert` hands the value
back and the loop starts over with the same `node`: the cell is not re-read and `fail_count` is
not raised. A call that saw the cell empty, and lost the cell to another thread's leaf, therefore
repeats `compare_exchange_weak(null, _)` against a cell that stays non-null, and never reaches
the `MAX_FAILURES` escape. Each round frees its own leaf, so the allocator can hand the same
address back every time, and the round can be replayed forever with no spurious failure: no
bound on the iterations of an `insert` call exists.
-/

namespace Rustcurrent.HashMap

variable {K V : Type}

/-- A step whose `compare_exchange_weak`, if it makes one, fails only when the cell differs from
    the expected word. -/
def Action.NoSpurious : Action K V → Prop
  | .invoke .. => True
  | .step _ c => c.spurious = false

instance : DecidablePred (Action.NoSpurious (K := K) (V := V)) := fun a =>
  match a with
  | .invoke .. => isTrue trivial
  | .step _ c => inferInstanceAs (Decidable (c.spurious = false))

/-- A run without spurious failures. -/
def SpuriousFree (as : List (Action K V)) : Prop := ∀ a ∈ as, a.NoSpurious

instance (as : List (Action K V)) : Decidable (SpuriousFree as) :=
  inferInstanceAs (Decidable (∀ a ∈ as, a.NoSpurious))

theorem SpuriousFree.append {as bs : List (Action K V)} (ha : SpuriousFree as)
    (hb : SpuriousFree bs) : SpuriousFree (as ++ bs) := fun a h =>
  (List.mem_append.mp h).elim (ha a) (hb a)

/-- Thread 0's call `insert(0, 10)` after `n` lost rounds: it stands at line 104 with `node`
    still `None`. -/
def retryFrame (n : Nat) : Frame Nat Nat :=
  ⟨0, 10, 0, .head, 0, 0, 0, none, .tryAlloc .inLoop, n + 2⟩

/-- The state of the livelock after `n` rounds: thread 0 retries, the cell it wants holds
    another leaf, and address 16 is free for its next leaf. -/
structure Livelock (n : Nat) (s : HState Nat Nat) : Prop where
  thread : s.threads 0 = .running (retryFrame n)
  cell : s.head[0]? = some 8
  free : s.live 16 = false

/-- Thread 0 sees the cell empty; thread 1 then fills it with `insert(64, 20)`. -/
def loseCell : List (Action Nat Nat) :=
  [.invoke 0 0 10, .step 0 ⟨16, false⟩,
   .invoke 1 64 20, .step 1 ⟨8, false⟩, .step 1 ⟨8, false⟩, .step 1 ⟨8, false⟩]

/-- One lost round of thread 0: allocate the leaf at 16, fail the exchange, take the value back. -/
def retryRound : List (Action Nat Nat) := List.replicate 3 (.step 0 ⟨16, false⟩)

theorem livelock_start : ∃ s, (HState.new natHash).run loseCell = some s ∧ Livelock 0 s := by
  have hsome : ((HState.new natHash).run loseCell).isSome = true := by decide
  obtain ⟨s, hs⟩ := Option.isSome_iff_exists.mp hsome
  have hobs : ((HState.new natHash).run loseCell).map (fun s => (s.threads 0, s.head[0]?, s.live 16)) =
      some (.running (retryFrame 0), some 8, false) := by
    decide
  rw [hs, Option.map_some', Option.some_inj, Prod.mk.injEq, Prod.mk.injEq] at hobs
  exact ⟨s, hs, hobs.1, hobs.2.1, hobs.2.2⟩

/-- Each round of the livelock leads to the next: the failed exchange leaves the cell as it was
    and the freed leaf's address free again. -/
theorem Livelock.round {n : Nat} {s : HState Nat Nat} (h : Livelock n s) :
    ∃ s', s.run retryRound = some s' ∧ Livelock (n + 1) s' := by
  have halloc : s.CanAlloc 16 := ⟨by decide, by decide, h.free⟩
  have h8 : ¬ ((8 : Word) = 0) := by decide
  -- line 181: the leaf is boxed at 16
  let s₁ := (s.alloc 16 (.data ⟨0, some 10⟩)).setThread 0
    (.running { retryFrame n with pc := .tryCas 16 .inLoop })
  have e₁ : s.exec (.step 0 ⟨16, false⟩) = some s₁ := by
    simp only [HState.exec, h.thread, HState.stepFrame, retryFrame, if_pos halloc]
    rfl
  -- line 183: the exchange expecting null fails against the other thread's leaf
  let s₂ := s₁.setThread 0 (.running { retryFrame n with pc := .tryTake 16 .inLoop })
  have e₂ : s₁.exec (.step 0 ⟨16, false⟩) = some s₂ := by
    simp only [s₁, HState.exec, HState.setThread_threads, Function.update_same, HState.stepFrame,
      retryFrame, HState.cell, HState.setThread_head, HState.alloc_head, h.cell, h8, false_and,
      if_false]
    rfl
  -- lines 187-190: the value is taken back and the leaf freed; the loop starts over with `None`
  let s₃ := ((s₂.write 16 (.data .default)).free 16).setThread 0 (.running (retryFrame (n + 1)))
  have e₃ : s₂.exec (.step 0 ⟨16, false⟩) = some s₃ := by
    simp only [s₂, s₁, HState.exec, HState.setThread_threads, Function.update_same,
      HState.stepFrame, retryFrame, HState.setThread_mem, HState.alloc_mem]
    rfl
  refine ⟨s₃, ?_, ?_, ?_, ?_⟩
  · simp only [retryRound, List.replicate, HState.run, e₁, e₂, e₃, Option.some_bind]
  · simp only [s₃, HState.setThread_threads, Function.update_same]
  · simp only [s₃, s₂, s₁, HState.setThread_head, HState.free_head, HState.write_head,
      HState.alloc_head, h.cell]
  · simp only [s₃, HState.setThread_live, HState.free_live, Function.update_same]

/-- For every `n`, a run without spurious failures leaves thread 0's call after `n` lost
    rounds. -/
theorem livelock_reachable (n : Nat) : ∃ as s, SpuriousFree as ∧
    (HState.new natHash).run as = some s ∧ Livelock n s := by
  induction n with
  | zero =>
    obtain ⟨s, hs, hl⟩ := livelock_start
    exact ⟨loseCell, s, by decide, hs, hl⟩
  | succ n ih =>
    obtain ⟨as, s, hsf, hs, hl⟩ := ih
    obtain ⟨s', hs', hl'⟩ := hl.round
    exact ⟨as ++ retryRound, s', hsf.append (by decide), by rw [HState.run_append, hs]; exact hs', hl'⟩

/-- No bound on the iterations of an `insert` call holds, even over runs in which no
    `compare_exchange_weak` fails spuriously. -/
theorem insert_iterations_unbounded : ¬ ∃ B : Nat, ∀ (as : List (Action Nat Nat)) s,
    SpuriousFree as → (HState.new natHash).run as = some s →
    ∀ t f, s.threads t = .running f → f.iterations ≤ B := by
  rintro ⟨B, hB⟩
  obtain ⟨as, s, hsf, hs, hl⟩ := livelock_reachable B
  have := hB as s hsf hs 0 _ hl.thread
  simp only [retryFrame] at this
  omega

end Rustcurrent.HashMap
