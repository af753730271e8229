import Rustcurrent.HashMap.Tags

/-!
# The calls that return `Ok`

`try_insert` succeeds only by exchanging the null word of a cell for its fresh leaf (line 183),
and no exchange of the map stores null: the leaf and the `ArrayNode` of `expand_map` (line 72) are
fresh allocations, and the allocator never returns null (`StoresNode`). A cell of `head` that
holds a node therefore holds one for ever after (`CapInv.stepFrame`). Since no call ever descends
below `head` (`running_at_head`), a call that returns `Ok(())` has filled the cell
`hash & (HEAD_SIZE - 1)` of `head`, which was null until then.

So along any interleaving of `insert` calls, no two calls that return `Ok(())` have hashes that
agree on their six low bits, and no key is inserted twice (`ok_keys_distinct_cells`); and at most
`HEAD_SIZE` calls ever return `Ok(())` (`ok_returns_le_head_size`): the map never takes a 65th
entry.
-/

namespace Rustcurrent.HashMap

variable {K V : Type}

/-- The key of the call that the event `a`, taking `s` to `s'`, ends with `Ok(())`, if it does. -/
def HState.okKey (s s' : HState K V) : Action K V → List K
  | .step t _ =>
    match s.threads t, s'.threads t with
    | .running f, .returned .ok => [f.key]
    | _, _ => []
  | .invoke .. => []

/-- The keys of the `insert` calls that return `Ok(())` along the run of `as` from `s`, in order,
    up to the first event that is not enabled. -/
def HState.okKeys (s : HState K V) : List (Action K V) → List K
  | [] => []
  | a :: as =>
    match s.exec a with
    | some s' => s.okKey s' a ++ s'.okKeys as
    | none => []

/-- Cell `pos` of `head` does not hold the null word. -/
def HState.Holds (s : HState K V) (pos : Nat) : Prop := s.cell .head pos ≠ some 0

/-- The word the exchange at a program point is about to store is not null. -/
def StoresNode : Pc → Prop
  | .expandCas _ arr _ => arr ≠ 0
  | .tryCas p _ => p ≠ 0
  | .loadNode | .recheck _ | .readLeaf _ | .descend _ _ | .lastLoad | .expandLoad _
  | .expandReload _ _ | .expandRead _ _ | .expandAlloc _ _ _ | .expandDrop _ _ | .expandLoadAfter _
  | .tryAlloc _ | .tryTake _ _ => True

/-- What the argument needs of a running call: the exchange it is about to make stores a node,
    its hash is the hasher's, and once it has loaded its cell, the cell is the hash's. -/
@[mk_iff]
structure CallOk (hasher : K → BitVec 64) (f : Frame K V) : Prop where
  stores : StoresNode f.pc
  hash : f.hash = hasher f.key
  pos : f.pos = posOf f.hash headSize ∨ f.pc = .loadNode ∨ f.pc = .lastLoad

/-- The invariant of the argument: the tag invariant, and every running call is `CallOk`. -/
structure CapInv (s : HState K V) : Prop where
  tags : TagInv s
  calls : ∀ t f, s.threads t = .running f → CallOk s.hasher f

/-! ## Frames -/

namespace Frame

/-- The helpers of `insert`'s control flow keep the call's key, hash and cell, and stop at no
    exchange. -/
@[simp] theorem afterMarked_keeps (p : Word) (f : Frame K V) :
    StoresNode (afterMarked p f).pc ∧ (afterMarked p f).key = f.key ∧
      (afterMarked p f).hash = f.hash ∧ (afterMarked p f).pos = f.pos := by
  unfold afterMarked; split <;> exact ⟨trivial, rfl, rfl, rfl⟩

@[simp] theorem matchNode_keeps (f : Frame K V) :
    StoresNode (matchNode f).pc ∧ (matchNode f).key = f.key ∧
      (matchNode f).hash = f.hash ∧ (matchNode f).pos = f.pos := by
  unfold matchNode; split
  · exact ⟨trivial, rfl, rfl, rfl⟩
  · split
    · exact ⟨trivial, rfl, rfl, rfl⟩
    · exact afterMarked_keeps _ _

@[simp] theorem loopTop_keeps (f : Frame K V) :
    StoresNode (loopTop f).pc ∧ (loopTop f).key = f.key ∧
      (loopTop f).hash = f.hash ∧ (loopTop f).pos = f.pos := by
  unfold loopTop; dsimp only; split
  · exact ⟨trivial, rfl, rfl, rfl⟩
  · exact matchNode_keeps _

@[simp] theorem expandReturn_keeps (w : Word) (f : Frame K V) (ret : ExpandRet) :
    StoresNode (expandReturn w f ret).pc ∧ (expandReturn w f ret).key = f.key ∧
      (expandReturn w f ret).hash = f.hash ∧ (expandReturn w f ret).pos = f.pos := by
  cases ret with
  | maxFailures => exact matchNode_keeps _
  | marked p => exact afterMarked_keeps _ _
  | collided =>
    simp only [expandReturn]
    split
    · exact ⟨trivial, rfl, rfl, rfl⟩
    · exact loopTop_keeps _

@[simp] theorem tryReturn_ok_eq (f : Frame K V) (ret : TryRet) :
    tryReturn f ret (.ok ()) = .returned .ok := by
  cases ret <;> rfl

/-- A fresh call has not loaded its cell yet. -/
theorem callOk_start (hasher : K → BitVec 64) (key : K) (value : V) :
    CallOk hasher (start key value (hasher key)) :=
  ⟨trivial, rfl, .inr (.inl rfl)⟩

end Frame

/-! ## Cells that hold a node -/

namespace HState

@[simp] theorem holds_setThread (s : HState K V) t st p : (s.setThread t st).Holds p ↔ s.Holds p :=
  Iff.rfl
@[simp] theorem holds_alloc (s : HState K V) a n p : (s.alloc a n).Holds p ↔ s.Holds p := Iff.rfl
@[simp] theorem holds_write (s : HState K V) a n p : (s.write a n).Holds p ↔ s.Holds p := Iff.rfl
@[simp] theorem holds_free (s : HState K V) a p : (s.free a).Holds p ↔ s.Holds p := Iff.rfl

/-- Storing a node into a cell of `head` that exists fills that cell and empties none. -/
theorem holds_setCell_head {s : HState K V} {pos : Nat} {old w : Word}
    (hold : s.cell .head pos = some old) (hw : w ≠ 0) (p : Nat) :
    (s.setCell .head pos w).Holds p ↔ p = pos ∨ s.Holds p := by
  have hpos := (List.getElem?_eq_some_iff.mp hold).1
  simp only [Holds, cell, setCell_head_head, List.getElem?_set, if_pos hpos]
  by_cases hp : pos = p
  · subst hp; simpa using hw
  · simp [hp, Ne.symm hp]

end HState

theorem LiveOnly.holds_iff {s s' : HState K V} (h : LiveOnly s s') (p : Nat) :
    s'.Holds p ↔ s.Holds p := by
  unfold HState.Holds HState.cell; rw [h.1]

/-- What freeing an address keeps, dropping a node keeps. -/
theorem dropNode_keeps (P : HState K V → Prop) (hP : ∀ s a, P s → P (s.free a)) :
    ∀ (n : Nat) (s s' : HState K V) (a : Word), P s → dropNode n s a = some s' → P s'
  | 0, _, _, _, _, h => by simp [dropNode] at h
  | n + 1, s, s', a, hs, h => by
    have hcells : ∀ (cells : List Word) (s₀ s₁ : HState K V), P s₀ →
        cells.foldlM (dropCell (dropNode n)) s₀ = some s₁ → P s₁ := by
      intro cells
      induction cells with
      | nil => intro s₀ s₁ h₀ h; simp only [List.foldlM_nil] at h; exact Option.some.inj h ▸ h₀
      | cons w ws ih =>
        intro s₀ s₁ h₀ h
        simp only [List.foldlM_cons, Option.bind_eq_bind, Option.bind_eq_some] at h
        obtain ⟨s₂, h₂, h⟩ := h
        refine ih s₂ s₁ ?_ h
        unfold dropCell at h₂
        split at h₂
        · exact Option.some.inj h₂ ▸ h₀
        · exact dropNode_keeps P hP n _ _ _ h₀ h₂
    unfold dropNode at h
    split at h
    · split at h
      · exact Option.some.inj h ▸ hP s a hs
      · obtain ⟨s₁, h₁, rfl⟩ := Option.map_eq_some'.mp h
        exact hP _ a (hcells _ s s₁ hs h₁)
      · cases h
    · cases h

/-! ## Steps -/

/-- A step of thread `t` keeps the hasher and every other thread. -/
theorem HState.stepFrame_frame {s s' : HState K V} {t : Nat} {f : Frame K V} {c : Choice}
    (h : s.stepFrame t f c = some s') :
    s'.hasher = s.hasher ∧ ∀ u, u ≠ t → s'.threads u = s.threads u := by
  unfold HState.stepFrame at h
  cases hp : f.pc <;> simp only [hp] at h
  -- `Box::from_raw(array_node_ptr)` (line 77) only frees
  case expandDrop =>
    split at h
    · cases h; exact ⟨rfl, fun u hu => by simp [Function.update_noteq hu]⟩
    · next hd =>
      cases h
      have hh := dropNode_keeps (fun s₁ => s₁.hasher = s.hasher) (fun _ _ h => h) _ _ _ _ rfl hd
      exact ⟨hh, fun u hu => by simp [Function.update_noteq hu, (dropNode_liveOnly _ _ _ _ hd).2.2]⟩
  -- every other program point only writes the heap, `head` or thread `t`
  all_goals (repeat' split at h) <;> cases h <;>
    exact ⟨by simp, fun u hu => by simp [Function.update_noteq hu]⟩

/-- One step of a call: its next frame is `CallOk`, no cell of `head` is emptied, and a step that
    ends the call with `Ok(())` has filled the call's cell, null until then. -/
theorem CapInv.stepFrame {s s' : HState K V} {t : Nat} {f : Frame K V} {c : Choice}
    (hs : CapInv s) (ht : s.threads t = .running f) (h : s.stepFrame t f c = some s') :
    (∀ g, s'.threads t = .running g → CallOk s.hasher g) ∧ (∀ p, s.Holds p → s'.Holds p) ∧
      (s'.threads t = .returned .ok →
        ¬ s.Holds (posOf f.hash headSize) ∧ s'.Holds (posOf f.hash headSize)) := by
  obtain ⟨hst, hhash, hpos⟩ := hs.calls t f ht
  obtain ⟨hl, hpcok⟩ := hs.tags.frames t f ht
  have hlen : s.bucketLen .head = headSize := hs.tags.len
  unfold HState.stepFrame at h
  rw [hl.bucket] at h
  cases hp : f.pc <;>
    simp only [hp, PcOk, StoresNode, reduceCtorEq, or_false, false_or] at h hpos hpcok hst
  -- the allocations of lines 71 and 181 return a non-null address
  case expandAlloc =>
    split at h
    · next halloc => cases h; simp [callOk_iff, hhash, hpos, hlen]; exact halloc.1
    · cases h
  case tryAlloc =>
    split at h
    · next halloc => cases h; simp [callOk_iff, hhash, hpos, hlen]; exact halloc.1
    · cases h
  -- the exchange of line 72 stores the non-null `ArrayNode`
  case expandCas =>
    split at h
    · cases h; simp [callOk_iff, hhash, hpos, hlen]
    · next w hw =>
      split at h <;> cases h <;> simp [callOk_iff, hhash, hpos, hlen]
      · rw [← hhash, ← hpos]
        exact fun p hp => (HState.holds_setCell_head hw hst p).mpr (.inr hp)
      · trivial
  -- the exchange of line 183 fills the null cell of the call's hash
  case tryCas =>
    split at h
    · cases h; simp [callOk_iff, hhash, hpos, hlen]
    · next w hw =>
      split at h <;> cases h <;> simp [callOk_iff, hhash, hpos, hlen]
      · next hcas =>
        rw [← hhash, ← hpos]
        exact ⟨fun p hp => (HState.holds_setCell_head hw hst p).mpr (.inr hp), fun hh => hh (hcas.1 ▸ hw),
          (HState.holds_setCell_head hw hst _).mpr (.inl rfl)⟩
      · trivial
  -- line 77: dropping the unpublished `ArrayNode` keeps `head`
  case expandDrop =>
    split at h
    · cases h; simp [callOk_iff, hhash, hpos, hlen]
    · next hd =>
      cases h
      simp [callOk_iff, hhash, hpos, hlen]
      exact ⟨trivial, fun p => ((dropNode_liveOnly _ _ _ _ hd).holds_iff p).mpr⟩
  -- lines 187-190: the call goes on with the value taken back
  case tryTake ptr ret =>
    (repeat' split at h) <;> cases h <;> cases ret <;> simp [Frame.tryReturn, callOk_iff, hhash, hpos]
  -- the other program points write no cell, and stop at no exchange
  all_goals (repeat' split at h) <;> (try cases h) <;> (try simp [callOk_iff, hhash, hpos, hlen]) <;>
    (try trivial)

/-- An event ends at most one call. -/
theorem HState.okKey_eq (s s' : HState K V) (a : Action K V) :
    s.okKey s' a = [] ∨ ∃ k, s.okKey s' a = [k] := by
  cases a <;> simp only [okKey] <;> (try split) <;> simp

/-- One event keeps the invariant and the hasher, empties no cell of `head`, and the call it ends
    with `Ok(())`, if any, has filled its key's cell, null until then. -/
theorem CapInv.exec {s s' : HState K V} (hs : CapInv s) {a : Action K V} (h : s.exec a = some s') :
    CapInv s' ∧ s'.hasher = s.hasher ∧ (∀ p, s.Holds p → s'.Holds p) ∧
      ∀ k ∈ s.okKey s' a,
        ¬ s.Holds (posOf (s.hasher k) headSize) ∧ s'.Holds (posOf (s.hasher k) headSize) := by
  have htags := hs.tags.exec h
  cases a with
  | invoke t key value =>
    simp only [HState.exec] at h
    split at h
    · cases h
      refine ⟨⟨htags, fun u g hg => ?_⟩, rfl, fun _ hp => hp, by simp [HState.okKey]⟩
      by_cases hu : u = t
      · simp only [HState.resume_eq, HState.setThread_threads, hu, Function.update_same,
          Status.running.injEq] at hg
        exact hg ▸ Frame.callOk_start _ _ _
      · exact hs.calls u g (by simpa [Function.update_noteq hu] using hg)
    · cases h
  | step t c =>
    simp only [HState.exec] at h
    split at h
    · rename_i f ht
      obtain ⟨hcall, hheld, hok⟩ := hs.stepFrame ht h
      obtain ⟨hhasher, hother⟩ := HState.stepFrame_frame h
      refine ⟨⟨htags, fun u g hg => hhasher ▸ ?_⟩, hhasher, hheld, fun k hk => ?_⟩
      · by_cases hu : u = t
        · exact hcall g (hu ▸ hg)
        · exact hs.calls u g (hother u hu ▸ hg)
      · simp only [HState.okKey, ht] at hk
        split at hk
        · rename_i hf hret
          cases hf
          obtain rfl := List.mem_singleton.mp hk
          rw [← (hs.calls t f ht).hash]
          exact hok hret
        · cases hk
    · cases h

/-- From a state of the invariant, the calls that return `Ok(())` along any run have keys whose
    cells are pairwise different, and null in that state. -/
theorem CapInv.okKeys_cells {s : HState K V} (hs : CapInv s) (as : List (Action K V)) :
    ((s.okKeys as).map fun k => posOf (s.hasher k) headSize).Nodup ∧
      ∀ k ∈ s.okKeys as, ¬ s.Holds (posOf (s.hasher k) headSize) := by
  induction as generalizing s with
  | nil => exact ⟨List.nodup_nil, fun _ h => nomatch h⟩
  | cons a as ih =>
    simp only [HState.okKeys]
    split
    · rename_i s' h
      obtain ⟨hs', hhasher, hheld, hnew⟩ := hs.exec h
      obtain ⟨hnd, hnull⟩ := ih hs'
      rw [hhasher] at hnd hnull
      refine ⟨?_, fun k hk => (List.mem_append.mp hk).elim (fun hk => (hnew k hk).1)
        (fun hk hh => hnull k hk (hheld _ hh))⟩
      rw [List.map_append, List.nodup_append]
      rcases s.okKey_eq s' a with he | ⟨k, he⟩
      · simp [he, hnd]
      · -- the new call's cell holds a node after the event; the later calls' cells are null
        have hk := (hnew k (he ▸ List.mem_singleton_self k)).2
        refine ⟨by simp [he], hnd, ?_⟩
        simp only [he, List.map_cons, List.map_nil, List.singleton_disjoint, List.mem_map, not_exists,
          not_and]
        exact fun k' hk' heq => hnull k' hk' (heq ▸ hk)
    · exact ⟨List.nodup_nil, fun _ h => nomatch h⟩

theorem capInv_new (hasher : K → BitVec 64) : CapInv (HState.new (V := V) hasher) :=
  ⟨tagInv_new hasher, fun _ _ h => nomatch h⟩

/-- Along any interleaving of `insert` calls on `HashMap::new()`, the calls that return `Ok(())`
    have pairwise different keys, and indeed hashes that fall in pairwise different cells of
    `head`. -/
theorem ok_keys_distinct_cells (hasher : K → BitVec 64) (as : List (Action K V)) :
    ((HState.new hasher).okKeys as).Nodup ∧
      (((HState.new hasher).okKeys as).map fun k => posOf (hasher k) headSize).Nodup :=
  have h := ((capInv_new hasher).okKeys_cells as).1
  ⟨h.of_map _, h⟩

/-- Along any interleaving of `insert` calls on `HashMap::new()`, at most `HEAD_SIZE` of them
    return `Ok(())`. -/
theorem ok_returns_le_head_size (hasher : K → BitVec 64) (as : List (Action K V)) :
    ((HState.new hasher).okKeys as).length ≤ headSize := by
  have hsub : ((HState.new hasher).okKeys as).map (fun k => posOf (hasher k) headSize) ⊆
      List.range headSize := fun p hp => by
    obtain ⟨k, -, rfl⟩ := List.mem_map.mp hp
    rw [List.mem_range, posOf_headSize]
    exact Nat.mod_lt _ (by decide)
  simpa using (((capInv_new hasher).okKeys_cells as).1.subperm hsub).length_le

end Rustcurrent.HashMap
