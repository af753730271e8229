import Rustcurrent.HashMap.Tags

/-!
# A failed expansion frees the leaf it displaced

When `expand_map`'s `compare_exchange_weak` fails, line 77 turns the private `ArrayNode` back into
a `Box` and drops it. The drop glue runs `AtomicMarkablePtr::drop` on every cell, and the one
non-null cell is the leaf the expansion copied in: so the leaf is freed (`dropNode_expansion`),
although it is still linked, from the cell the expansion wanted to replace or from the winner's
`ArrayNode`.

A linked leaf that has been freed breaks the trie in two ways. It stays reachable while no longer
allocated; and once the allocator hands its address out again, an `expand_map` that read the
old leaf's hash publishes an `ArrayNode` routed by that stale hash over a cell that now holds
another leaf.
-/

namespace Rustcurrent.HashMap

variable {K V : Type}

theorem dropCell_zero (drop : HState K V → Word → Option (HState K V)) (s : HState K V) :
    dropCell drop s 0 = some s := by
  unfold dropCell
  rw [untagged_zero.unmarkArrayNode_eq, untagged_zero.unmark_eq, if_pos rfl]

theorem dropCell_untagged (drop : HState K V → Word → Option (HState K V)) (s : HState K V)
    {w : Word} (hu : Untagged w) (hnz : w ≠ 0) : dropCell drop s w = drop s w := by
  unfold dropCell
  rw [hu.unmarkArrayNode_eq, hu.unmark_eq, if_neg hnz]

theorem dropNode_data {n : Nat} {s : HState K V} {a : Word} {d : DataNode V}
    (hl : s.live a = true) (hm : s.mem a = some (.data d)) : dropNode (n + 1) s a = some (s.free a) := by
  rw [dropNode, if_pos hl, hm]

private theorem foldlM_dropCell_zeros (drop : HState K V → Word → Option (HState K V)) :
    ∀ (n : Nat) (s : HState K V), (List.replicate n (0 : Word)).foldlM (dropCell drop) s = some s
  | 0, _ => rfl
  | n + 1, s => by
    rw [List.replicate_succ, List.foldlM_cons, dropCell_zero, Option.bind_eq_bind, Option.some_bind]
    exact foldlM_dropCell_zeros drop n s

private theorem replicate_set {α : Type} (a b : α) :
    ∀ (n i : Nat), i < n → (List.replicate n a).set i b =
      List.replicate i a ++ b :: List.replicate (n - i - 1) a
  | n + 1, 0, _ => by simp [List.replicate_succ]
  | n + 1, i + 1, h => by
    rw [List.replicate_succ, List.set_cons_succ, replicate_set a b n i (by omega),
      show n + 1 - (i + 1) - 1 = n - i - 1 by omega]
    rfl

/-- Dropping an expansion's private `ArrayNode`, whose only non-null cell holds the displaced
    live leaf, frees that leaf and then the `ArrayNode`. -/
theorem dropNode_expansion {s : HState K V} {arr node : Word} {newPos : Nat} {d : DataNode V}
    (hpos : newPos < headSize)
    (harr : s.mem arr = some (.array ((List.replicate headSize 0).set newPos node)))
    (hla : s.live arr = true) (hnode : s.mem node = some (.data d)) (hln : s.live node = true)
    (hu : Untagged node) (hnz : node ≠ 0) :
    dropNode keySize s arr = some ((s.free node).free arr) := by
  rw [show keySize = 62 + 1 + 1 from rfl, dropNode, if_pos hla, harr]
  dsimp only
  simp only [replicate_set _ _ _ _ hpos, List.foldlM_append, foldlM_dropCell_zeros,
    List.foldlM_cons, dropCell_untagged _ _ hu hnz, dropNode_data hln hnode, Option.bind_eq_bind,
    Option.some_bind]
  rfl

/-- The step of line 77: dropping a failed expansion's `ArrayNode` frees the leaf it displaced
    and leaves every cell as it was, so a leaf still linked from a cell becomes unallocated. -/
theorem expandDrop_frees_leaf {s : HState K V} {t : Nat} {f : Frame K V} (c : Choice)
    {arr node : Word} {ret : ExpandRet} {newPos : Nat} {d : DataNode V}
    (hpc : f.pc = .expandDrop arr ret) (hpos : newPos < headSize)
    (harr : s.mem arr = some (.array ((List.replicate headSize 0).set newPos node)))
    (hla : s.live arr = true) (hnode : s.mem node = some (.data d)) (hln : s.live node = true)
    (hu : Untagged node) (hnz : node ≠ 0) :
    ∃ s', s.stepFrame t f c = some s' ∧ s'.live node = false ∧ s'.head = s.head ∧ s'.mem = s.mem := by
  have h : s.stepFrame t f c = some (((s.free node).free arr).resume t { f with pc := .expandLoadAfter ret }) := by
    simp only [HState.stepFrame, hpc, dropNode_expansion hpos harr hla hnode hln hu hnz]
  refine ⟨_, h, ?_, rfl, rfl⟩
  simp only [HState.resume_eq, HState.setThread_live, HState.free_live, Function.update_apply]
  split_ifs <;> rfl

/-- Threads 1 and 2 collide with the leaf of key 0 (boxed at 8) and both prepare an expansion;
    thread 1 publishes its `ArrayNode` (at 16), thread 2's exchange then fails and it drops its
    own (at 24). -/
def lostExpansion : List (Action Nat Nat) :=
  firstInsert ++
  .invoke 1 64 20 :: List.replicate 7 (.step 1 ⟨16, false⟩) ++
  .invoke 2 128 30 :: List.replicate 7 (.step 2 ⟨24, false⟩) ++
  [.step 1 ⟨16, false⟩, .step 2 ⟨24, false⟩, .step 2 ⟨24, false⟩]

/-- After `lostExpansion`, the leaf of key 0 is linked from `head[0]` through cell 0 of the
    published `ArrayNode`, and it is no longer allocated. -/
theorem linked_leaf_freed :
    ((HState.new natHash).run lostExpansion).map (fun s => (s.head[0]?, s.cell (.array 16) 0, s.live 8)) =
      some (some 16, some 8, false) := by
  -- the last event of `lostExpansion` is thread 2's drop (line 77) of its `ArrayNode` at 24
  obtain ⟨s, hs⟩ := Option.isSome_iff_exists.mp
    (by decide : ((HState.new natHash).run (lostExpansion.take 22)).isSome = true)
  have hnodes : ((HState.new natHash).run (lostExpansion.take 22)).map (fun s => (s.mem 24, s.mem 8)) =
      some (some (.array ((List.replicate headSize 0).set 0 8)), some (.data ⟨natHash 0, some 10⟩)) := by
    decide
  have hcells : ((HState.new natHash).run (lostExpansion.take 22)).map (fun s =>
      (s.live 24, s.live 8, s.head[0]?, s.cell (.array 16) 0)) = some (true, true, some 16, some 8) := by
    decide
  have hpc : ((HState.new natHash).run (lostExpansion.take 22)).map (fun s =>
      match s.threads 2 with
      | .running f => f.pc == .expandDrop 24 .collided
      | _ => false) = some true := by
    decide
  simp only [hs, Option.map_some', Option.some_inj, Prod.mk.injEq] at hnodes hcells hpc
  obtain ⟨⟨h24, h8⟩, hl24, hl8, hh, hc⟩ := And.intro hnodes hcells
  split at hpc
  · next f ht =>
    obtain ⟨s', hstep, hfree, hhead, hmem⟩ := expandDrop_frees_leaf (t := 2) ⟨24, false⟩ (beq_iff_eq.mp hpc)
      (by decide) h24 hl24 h8 hl8 (by decide) (by decide)
    have hcell : s'.cell (.array 16) 0 = s.cell (.array 16) 0 := by simp only [HState.cell, hmem]
    rw [show lostExpansion = lostExpansion.take 22 ++ [.step 2 ⟨24, false⟩] from rfl, HState.run_append, hs]
    simp only [Option.some_bind, HState.run, HState.exec, ht, hstep, Option.map_some', hcell, hhead,
      hfree, hh, hc]
  · cases hpc

/-- The changes of a `head` cell from `w` to `w'` that the trie's lifecycle allows: null to a
    data leaf, or a data leaf `L` to an `ArrayNode` whose only non-null cell is `L`'s slot one
    level down, holding `L`. -/
def LifecycleStep (s s' : HState K V) (w w' : Word) : Prop :=
  (w = 0 ∧ ∃ d, s'.mem w' = some (.data d)) ∨
  ∃ d : DataNode V, s.mem w = some (.data d) ∧
    s'.mem w' = some (.array ((List.replicate headSize 0).set (posOf (d.key >>> shiftStep) headSize) w))

/-- As `lostExpansion`, but thread 2's exchange fails spuriously while thread 1 still waits at
    its own; the drop frees the leaf at 8, thread 0 inserts key 65 into `head[1]` and the
    allocator hands it address 8 again. Thread 1's exchange on `head[0]` is next. -/
def staleExpansion : List (Action Nat Nat) :=
  firstInsert ++
  .invoke 1 64 20 :: List.replicate 7 (.step 1 ⟨16, false⟩) ++
  .invoke 2 128 30 :: List.replicate 7 (.step 2 ⟨24, false⟩) ++
  [.step 2 ⟨24, true⟩, .step 2 ⟨24, false⟩,
   .invoke 0 65 40, .step 0 ⟨8, false⟩, .step 0 ⟨8, false⟩, .step 0 ⟨8, false⟩]

/-- Thread 1's exchange then replaces the leaf of key 65 in `head[0]` by an `ArrayNode` that
    routes it to slot 0, where key 65 belongs in slot 1: a change the lifecycle does not allow. -/
theorem lifecycle_broken : ¬ ∀ (s s' : HState Nat Nat) (a : Action Nat Nat), Reachable natHash s →
    s.exec a = some s' → ∀ (i : Nat) (w w' : Word), s.head[i]? = some w → s'.head[i]? = some w' →
    w ≠ w' → LifecycleStep s s' w w' := by
  intro hall
  have hsome : ((HState.new natHash).run staleExpansion).isSome = true := by decide
  obtain ⟨s, hs⟩ := Option.isSome_iff_exists.mp hsome
  have hsome' : (s.exec (.step 1 ⟨16, false⟩)).isSome = true := by
    have : (((HState.new natHash).run staleExpansion).bind (·.exec (.step 1 ⟨16, false⟩))).isSome =
        true := by decide
    rwa [hs, Option.some_bind] at this
  obtain ⟨s', hs'⟩ := Option.isSome_iff_exists.mp hsome'
  have hbefore : ((HState.new natHash).run staleExpansion).map (fun s => (s.head[0]?, s.mem 8)) =
      some (some 8, some (.data ⟨65, some 40⟩)) := by decide
  have hafter : (((HState.new natHash).run staleExpansion).bind (·.exec (.step 1 ⟨16, false⟩))).map
      (fun s => (s.head[0]?, s.mem 16)) =
      some (some 16, some (.array ((List.replicate headSize 0).set 0 8))) := by decide
  rw [hs, Option.map_some', Option.some_inj, Prod.mk.injEq] at hbefore
  rw [hs, Option.some_bind, hs', Option.map_some', Option.some_inj, Prod.mk.injEq] at hafter
  rcases hall s s' _ ⟨_, hs⟩ hs' 0 8 16 hbefore.1 hafter.1 (by decide) with ⟨h0, -⟩ | ⟨d, hd, harr⟩
  · exact absurd h0 (by decide)
  · rw [hbefore.2, Option.some_inj, Node.data.injEq] at hd
    rw [hafter.2, ← hd] at harr
    exact absurd harr (by decide)

end Rustcurrent.HashMap
