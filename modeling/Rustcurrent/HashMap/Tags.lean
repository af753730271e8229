import Rustcurrent.HashMap.Machine

/-!
# The array-node tag is never set

`expand_map` publishes `array_node_ptr` exactly as `Box::into_raw` returns it: no code of the map
calls `mark_array_node` or `mark`. So in every reachable state every word a cell holds, and every
word an `insert` call has loaded, has both tag bits clear (`TagInv`). The readers of the tag
therefore never fire: `is_array_node` and `is_marked` are false on every loaded word, and no call
ever descends into an `ArrayNode` (`running_at_head`).

What the source relies on instead does happen: after an expansion, the next look at the cell
finds an untagged `ArrayNode` and dereferences it as a leaf, which is the `panic!` of line 134,
and a second expander that loaded the leaf before the first published reaches line 66.
-/

namespace Rustcurrent.HashMap

variable {K V : Type}

/-- Every word a cell holds, in `head` or in an `ArrayNode` of the heap, has its tag bits clear. -/
structure CellsUntagged (s : HState K V) : Prop where
  head : ∀ w ∈ s.head, Untagged w
  arrays : ∀ a cells, s.mem a = some (.array cells) → ∀ w ∈ cells, Untagged w

/-- `expand_map` is never called from the marked branch (line 111). -/
def RetOk : ExpandRet → Prop
  | .marked _ => False
  | _ => True

/-- The words a program point carries are untagged, and no point is a descent. -/
def PcOk : Pc → Prop
  | .loadNode | .lastLoad | .tryAlloc _ => True
  | .recheck p | .readLeaf p | .tryCas p _ | .tryTake p _ => Untagged p
  | .descend _ _ => False
  | .expandLoad ret | .expandLoadAfter ret => RetOk ret
  | .expandReload node ret | .expandRead node ret | .expandAlloc node _ ret =>
    Untagged node ∧ RetOk ret
  | .expandCas node arr ret => Untagged node ∧ Untagged arr ∧ RetOk ret
  | .expandDrop arr ret => Untagged arr ∧ RetOk ret

/-- The locals of a call that has never descended. -/
structure Locals (f : Frame K V) : Prop where
  bucket : f.bucket = .head
  r : f.r = 0
  node : ∀ w, f.node = some w → Untagged w

/-- A frame of a call that has never descended, at a program point that carries untagged words. -/
def FrameOk (f : Frame K V) : Prop := Locals f ∧ PcOk f.pc

/-- The tag invariant of the map. -/
structure TagInv (s : HState K V) : Prop where
  cells : CellsUntagged s
  len : s.head.length = headSize
  frames : ∀ t f, s.threads t = .running f → FrameOk f

/-! ## Words -/

theorem getPtr_eq_some {w p : Word} (h : getPtr w = some p) : p = w := by
  unfold getPtr at h
  split at h
  · cases h
  · exact (Option.some.inj h).symm

theorem CellsUntagged.cell {s : HState K V} (hc : CellsUntagged s) {b : Bucket} {pos : Nat}
    {w : Word} (h : s.cell b pos = some w) : Untagged w := by
  cases b with
  | head => exact hc.head w (List.getElem?_mem h)
  | array a =>
    simp only [HState.cell] at h
    split at h
    · exact hc.arrays _ _ ‹_› w (List.getElem?_mem h)
    · cases h

theorem CellsUntagged.setThread {s : HState K V} (hc : CellsUntagged s) (t : Nat)
    (st : Status K V) : CellsUntagged (s.setThread t st) := ⟨hc.head, hc.arrays⟩

theorem CellsUntagged.free {s : HState K V} (hc : CellsUntagged s) (a : Word) :
    CellsUntagged (s.free a) := ⟨hc.head, hc.arrays⟩

/-- Storing a node whose cells, if it has any, are untagged. -/
theorem CellsUntagged.write {s : HState K V} (hc : CellsUntagged s) (a : Word) {n : Node V}
    (hn : ∀ cells, n = .array cells → ∀ w ∈ cells, Untagged w) : CellsUntagged (s.write a n) where
  head := hc.head
  arrays b cells h := by
    simp only [HState.write_mem, Function.update_apply] at h
    split_ifs at h
    · exact hn cells (Option.some.inj h)
    · exact hc.arrays b cells h

theorem CellsUntagged.alloc {s : HState K V} (hc : CellsUntagged s) (a : Word) {n : Node V}
    (hn : ∀ cells, n = .array cells → ∀ w ∈ cells, Untagged w) : CellsUntagged (s.alloc a n) :=
  ⟨(hc.write a hn).head, (hc.write a hn).arrays⟩

theorem CellsUntagged.write_data {s : HState K V} (hc : CellsUntagged s) (a : Word)
    (d : DataNode V) : CellsUntagged (s.write a (.data d)) :=
  hc.write a (fun _ h => nomatch h)

theorem CellsUntagged.alloc_data {s : HState K V} (hc : CellsUntagged s) (a : Word)
    (d : DataNode V) : CellsUntagged (s.alloc a (.data d)) :=
  hc.alloc a (fun _ h => nomatch h)

theorem CellsUntagged.setCell_head {s : HState K V} (hc : CellsUntagged s) (pos : Nat) {w : Word}
    (hw : Untagged w) : CellsUntagged (s.setCell .head pos w) where
  head x hx := (List.mem_or_eq_of_mem_set hx).elim (hc.head x) (fun h => h ▸ hw)
  arrays := hc.arrays

/-! ## Dropping a node only frees -/

/-- `s'` differs from `s` at most in which addresses are allocated. -/
def LiveOnly (s s' : HState K V) : Prop :=
  s'.head = s.head ∧ s'.mem = s.mem ∧ s'.threads = s.threads

theorem LiveOnly.trans {s₁ s₂ s₃ : HState K V} (h₁ : LiveOnly s₁ s₂) (h₂ : LiveOnly s₂ s₃) :
    LiveOnly s₁ s₃ :=
  ⟨h₂.1.trans h₁.1, h₂.2.1.trans h₁.2.1, h₂.2.2.trans h₁.2.2⟩

theorem dropNode_liveOnly : ∀ (n : Nat) (s s' : HState K V) (a : Word),
    dropNode n s a = some s' → LiveOnly s s'
  | 0, _, _, _, h => by simp [dropNode] at h
  | n + 1, s, s', a, h => by
    have hcells : ∀ (cells : List Word) (s₀ s₁ : HState K V), LiveOnly s s₀ →
        cells.foldlM (dropCell (dropNode n)) s₀ = some s₁ → LiveOnly s s₁ := by
      intro cells
      induction cells with
      | nil => intro s₀ s₁ h₀ h; simp only [List.foldlM_nil] at h; exact Option.some.inj h ▸ h₀
      | cons w ws ih =>
        intro s₀ s₁ h₀ h
        simp only [List.foldlM_cons, Option.bind_eq_bind, Option.bind_eq_some] at h
        obtain ⟨s₂, h₂, h⟩ := h
        refine ih s₂ s₁ ?_ h
        unfold dropCell at h₂
        split at h₂
        · exact Option.some.inj h₂ ▸ h₀
        · exact h₀.trans (dropNode_liveOnly n _ _ _ h₂)
    unfold dropNode at h
    split at h
    · split at h
      · exact Option.some.inj h ▸ ⟨rfl, rfl, rfl⟩
      · obtain ⟨s₁, h₁, rfl⟩ := Option.map_eq_some'.mp h
        exact (hcells _ s s₁ ⟨rfl, rfl, rfl⟩ h₁).trans ⟨rfl, rfl, rfl⟩
      · cases h
    · cases h

/-! ## Frames -/

theorem Frame.afterMarked_ok {f : Frame K V} {p : Word} (hp : Untagged p) (hf : Locals f) :
    FrameOk (Frame.afterMarked p f) := by
  unfold Frame.afterMarked
  rw [hp.isArrayNode_eq_false]
  exact ⟨⟨hf.bucket, hf.r, hf.node⟩, hp⟩

theorem Frame.matchNode_ok {f : Frame K V} (hf : Locals f) : FrameOk (Frame.matchNode f) := by
  unfold Frame.matchNode
  split
  · exact ⟨⟨hf.bucket, hf.r, hf.node⟩, trivial⟩
  · rename_i p hnode
    have hp := hf.node p hnode
    rw [hp.isMarked_eq_false]
    exact Frame.afterMarked_ok hp hf

theorem Frame.loopTop_ok {f : Frame K V} (hf : Locals f) : FrameOk (Frame.loopTop f) := by
  unfold Frame.loopTop
  dsimp only
  split
  · exact ⟨⟨hf.bucket, hf.r, hf.node⟩, trivial⟩
  · exact Frame.matchNode_ok ⟨hf.bucket, hf.r, hf.node⟩

theorem Frame.expandReturn_ok {f : Frame K V} {w : Word} {ret : ExpandRet} (hw : Untagged w)
    (hret : RetOk ret) (hf : Locals f) : FrameOk (Frame.expandReturn w f ret) := by
  have hl : Locals { f with node := some w } :=
    ⟨hf.bucket, hf.r, fun p hp => Option.some.inj hp ▸ hw⟩
  cases ret with
  | maxFailures => exact Frame.matchNode_ok hl
  | marked p => exact hret.elim
  | collided =>
    simp only [Frame.expandReturn, hw.isArrayNode_eq_false]
    exact Frame.loopTop_ok ⟨hf.bucket, hf.r, hl.node⟩

theorem Frame.tryReturn_ok {f : Frame K V} (hf : Locals f) (ret : TryRet) (e : Except V Unit)
    (g : Frame K V) (h : Frame.tryReturn f ret e = .running g) : FrameOk g := by
  cases ret <;> cases e <;> simp only [Frame.tryReturn, Status.running.injEq, reduceCtorEq] at h
  exact h ▸ Frame.loopTop_ok ⟨hf.bucket, hf.r, hf.node⟩

theorem Frame.start_ok (key : K) (value : V) (hash : BitVec 64) :
    FrameOk (Frame.start key value hash) :=
  ⟨⟨rfl, rfl, fun _ h => by cases h⟩, trivial⟩

/-! ## Preservation -/

/-- A step that changes the shared part of the state to `s₁` and gives thread `t` the status
    `st` keeps the invariant. -/
theorem TagInv.update {s s₁ : HState K V} {t : Nat} {st : Status K V} (hs : TagInv s)
    (hc : CellsUntagged s₁) (hl : s₁.head.length = headSize) (hth : s₁.threads = s.threads)
    (hst : ∀ g, st = .running g → FrameOk g) : TagInv (s₁.setThread t st) where
  cells := hc.setThread t st
  len := hl
  frames t' g h := by
    simp only [HState.setThread_threads, Function.update_apply] at h
    split_ifs at h
    · exact hst g h
    · exact hs.frames t' g (hth ▸ h)

theorem TagInv.halt {s : HState K V} (hs : TagInv s) (t : Nat) {st : Status K V}
    (hst : ∀ g, st ≠ .running g) : TagInv (s.setThread t st) :=
  hs.update hs.cells hs.len rfl (fun g h => (hst g h).elim)

theorem TagInv.resume {s : HState K V} (hs : TagInv s) (t : Nat) {g : Frame K V}
    (hg : FrameOk g) : TagInv (s.resume t g) :=
  hs.update hs.cells hs.len rfl (fun _ h => Status.running.inj h ▸ hg)

/-- The array an expansion allocates holds nulls and the leaf it displaces. -/
theorem untagged_of_mem_expansion {node w : Word} {newPos : Nat} (hn : Untagged node)
    (hw : w ∈ (List.replicate headSize 0).set newPos node) : Untagged w := by
  rcases List.mem_or_eq_of_mem_set hw with h | h
  · exact (List.eq_of_mem_replicate h) ▸ untagged_zero
  · exact h ▸ hn

theorem TagInv.stepFrame {s s' : HState K V} {t : Nat} {f : Frame K V} {c : Choice}
    (hs : TagInv s) (ht : s.threads t = .running f) (h : s.stepFrame t f c = some s') :
    TagInv s' := by
  obtain ⟨hf, hpc⟩ := hs.frames t f ht
  have hl : Locals f := hf
  have hcell : ∀ {pos w}, s.cell .head pos = some w → ∀ p, getPtr w = some p → Untagged p :=
    fun hw _ hp => getPtr_eq_some hp ▸ hs.cells.cell hw
  unfold HState.stepFrame at h
  cases hp : f.pc <;> simp only [hp, hf.bucket, PcOk] at h hpc
  case loadNode =>
    split at h <;> cases h
    · exact hs.halt t (fun _ => nofun)
    · exact hs.resume t (Frame.loopTop_ok ⟨rfl, hl.r, hcell ‹_›⟩)
  case recheck =>
    split at h
    · cases h; exact hs.halt t (fun _ => nofun)
    · split at h <;> cases h
      · exact hs.resume t ⟨⟨rfl, hl.r, hl.node⟩, hpc⟩
      · exact hs.resume t (Frame.loopTop_ok ⟨rfl, hl.r, hcell ‹_›⟩)
  case readLeaf =>
    split at h
    · split at h <;> cases h
      · exact hs.halt t (fun _ => nofun)
      · exact hs.resume t ⟨⟨rfl, hl.r, hl.node⟩, trivial⟩
    all_goals cases h; exact hs.halt t (fun _ => nofun)
  case lastLoad =>
    split at h
    · cases h; exact hs.halt t (fun _ => nofun)
    · split at h <;> cases h
      · exact hs.resume t ⟨⟨rfl, hl.r, hl.node⟩, trivial⟩
      · exact hs.halt t (fun _ => nofun)
  case expandLoad =>
    split at h
    · cases h; exact hs.halt t (fun _ => nofun)
    · rename_i w hw
      split at h
      · cases h; exact hs.halt t (fun _ => nofun)
      · rename_i node hn
        have hu := hcell hw node hn
        split at h <;> cases h
        · exact hs.resume t (Frame.expandReturn_ok hu hpc hl)
        · exact hs.resume t ⟨⟨rfl, hl.r, hl.node⟩, hu, hpc⟩
  case expandReload =>
    split at h
    · cases h; exact hs.halt t (fun _ => nofun)
    · rename_i w hw
      split at h
      · cases h; exact hs.halt t (fun _ => nofun)
      · rename_i node2 hn
        split at h <;> cases h
        · exact hs.resume t ⟨⟨rfl, hl.r, hl.node⟩, hpc⟩
        · exact hs.resume t (Frame.expandReturn_ok (hcell hw node2 hn) hpc.2 hl)
  case expandRead =>
    split at h
    · split at h <;> cases h
      · exact hs.halt t (fun _ => nofun)
      · exact hs.resume t ⟨⟨rfl, hl.r, hl.node⟩, hpc⟩
    all_goals cases h; exact hs.halt t (fun _ => nofun)
  case expandAlloc =>
    split at h
    · rename_i halloc
      cases h
      exact hs.update (hs.cells.alloc _ (fun _ hn w hw =>
          untagged_of_mem_expansion hpc.1 ((Node.array.inj hn) ▸ hw)))
        hs.len rfl (fun _ h => Status.running.inj h ▸ ⟨⟨rfl, hl.r, hl.node⟩, hpc.1, halloc.2.1, hpc.2⟩)
    · cases h
  case expandCas =>
    split at h
    · cases h; exact hs.halt t (fun _ => nofun)
    · split at h <;> cases h
      · exact hs.update (hs.cells.setCell_head _ hpc.2.1) (by simp [hs.len]) rfl
          (fun _ h => Status.running.inj h ▸ Frame.expandReturn_ok hpc.2.1 hpc.2.2 hl)
      · exact hs.resume t ⟨⟨rfl, hl.r, hl.node⟩, hpc.2⟩
  case expandDrop =>
    split at h
    · cases h; exact hs.halt t (fun _ => nofun)
    · rename_i s₁ hd
      cases h
      obtain ⟨hhead, hmem, hth⟩ := dropNode_liveOnly _ _ _ _ hd
      exact hs.update ⟨hhead ▸ hs.cells.head, hmem ▸ hs.cells.arrays⟩ (hhead ▸ hs.len) hth
        (fun _ h => Status.running.inj h ▸ ⟨⟨rfl, hl.r, hl.node⟩, hpc.2⟩)
  case expandLoadAfter =>
    split at h
    · cases h; exact hs.halt t (fun _ => nofun)
    · rename_i w hw
      split at h <;> cases h
      · exact hs.halt t (fun _ => nofun)
      · exact hs.resume t (Frame.expandReturn_ok (hcell hw _ ‹_›) hpc hl)
  case tryAlloc =>
    split at h
    · rename_i halloc
      cases h
      exact hs.update (hs.cells.alloc_data _ _) hs.len rfl
        (fun _ h => Status.running.inj h ▸ ⟨⟨rfl, hl.r, hl.node⟩, halloc.2.1⟩)
    · cases h
  case tryCas =>
    split at h
    · cases h; exact hs.halt t (fun _ => nofun)
    · split at h <;> cases h
      · exact hs.update (hs.cells.setCell_head _ hpc) (by simp [hs.len]) rfl
          (Frame.tryReturn_ok hl _ _)
      · exact hs.resume t ⟨⟨rfl, hl.r, hl.node⟩, hpc⟩
  case tryTake =>
    split at h
    · split at h <;> cases h
      · exact hs.update ((hs.cells.write_data _ _).free _) hs.len rfl
          (Frame.tryReturn_ok hl _ _)
      · exact hs.update (hs.cells.write_data _ _) hs.len rfl (fun _ => nofun)
    · cases h
      exact hs.update (hs.cells.write_data _ _) hs.len rfl (fun _ => nofun)
    · cases h; exact hs.halt t (fun _ => nofun)

theorem TagInv.exec {s s' : HState K V} (hs : TagInv s) {a : Action K V}
    (h : s.exec a = some s') : TagInv s' := by
  cases a with
  | invoke t key value =>
    simp only [HState.exec] at h
    split at h
    · cases h; exact hs.resume t (Frame.start_ok _ _ _)
    · cases h
  | step t c =>
    simp only [HState.exec] at h
    split at h
    · exact hs.stepFrame ‹_› h
    · cases h

theorem TagInv.run {s s' : HState K V} (hs : TagInv s) {as : List (Action K V)}
    (h : s.run as = some s') : TagInv s' := by
  induction as generalizing s with
  | nil => exact Option.some.inj h ▸ hs
  | cons a as ih =>
    obtain ⟨s₁, h₁, h⟩ := Option.bind_eq_some.mp h
    exact ih (hs.exec h₁) h

theorem tagInv_new (hasher : K → BitVec 64) : TagInv (HState.new (V := V) hasher) where
  cells := ⟨fun _ hw => (List.eq_of_mem_replicate hw) ▸ untagged_zero, fun _ _ h => nomatch h⟩
  len := List.length_replicate _ _
  frames _ _ h := nomatch h

theorem Reachable.tagInv {hasher : K → BitVec 64} {s : HState K V} (h : Reachable hasher s) :
    TagInv s :=
  let ⟨_, hr⟩ := h
  (tagInv_new hasher).run hr

/-! ## Runs -/

/-- The hasher of the runs below: the key's own 64 bits. -/
def natHash (k : Nat) : BitVec 64 := BitVec.ofNat 64 k

/-- Thread 0 inserts key 0 into an empty map; the leaf is boxed at address 8. -/
def firstInsert : List (Action Nat Nat) :=
  [.invoke 0 0 10, .step 0 ⟨8, false⟩, .step 0 ⟨8, false⟩, .step 0 ⟨8, false⟩]

/-- Thread 0 then inserts key 64, whose hash shares its low 6 bits with key 0's, until its
    expansion is published (the `ArrayNode` at address 16). -/
def expandingInsert : List (Action Nat Nat) :=
  firstInsert ++ .invoke 0 64 20 :: List.replicate 8 (.step 0 ⟨16, false⟩)

/-! ## Consequences -/

/-- No cell of a reachable state, in `head` or in any `ArrayNode`, holds a word whose array-node
    bit or mark bit is set. -/
theorem cell_tags_clear {hasher : K → BitVec 64} {s : HState K V} (h : Reachable hasher s)
    {b : Bucket} {pos : Nat} {w : Word} (hc : s.cell b pos = some w) :
    isArrayNode w = false ∧ isMarked w = false :=
  have hw := h.tagInv.cells.cell hc
  ⟨hw.isArrayNode_eq_false, hw.isMarked_eq_false⟩

/-- After the expansion of `expandingInsert` is published, `head[0]` holds the word of the
    `ArrayNode` and the node's cell 0 the displaced leaf: neither word has a tag bit set. -/
theorem cell_tags_clear_expanded :
    ∃ s : HState Nat Nat, Reachable natHash s ∧ s.cell .head 0 = some 16 ∧ s.cell (.array 16) 0 = some 8 ∧
      (isArrayNode 16 = false ∧ isMarked 16 = false) ∧ isArrayNode 8 = false ∧ isMarked 8 = false := by
  obtain ⟨s, hs, hp⟩ := @Reachable.of_run Nat Nat natHash expandingInsert
    (fun s => s.cell .head 0 == some 16 && s.cell (.array 16) 0 == some 8) (by decide)
  simp only [Bool.and_eq_true, beq_iff_eq] at hp
  exact ⟨s, hs, hp.1, hp.2, cell_tags_clear hs hp.1, cell_tags_clear hs hp.2⟩

/-- No `insert` call ever descends: every running call still works on `head`, at level 0. -/
theorem running_at_head {hasher : K → BitVec 64} {s : HState K V} (h : Reachable hasher s)
    {t : Nat} {f : Frame K V} (ht : s.threads t = .running f) : f.bucket = .head ∧ f.r = 0 :=
  have hf := (h.tagInv.frames t f ht).1
  ⟨hf.bucket, hf.r⟩

/-- After the expansion of `expandingInsert`, thread 0 is back at the recheck of `head[0]`, with
    the `ArrayNode` as the node it loaded: it still works on `head`, at level 0. -/
theorem running_at_head_expanded :
    ∃ (s : HState Nat Nat) (f : Frame Nat Nat), Reachable natHash s ∧ s.threads 0 = .running f ∧
      f.pc = .recheck 16 ∧ f.node = some 16 ∧ f.bucket = .head ∧ f.r = 0 := by
  obtain ⟨s, hs, hp⟩ := @Reachable.of_run Nat Nat natHash expandingInsert
    (fun s => match s.threads 0 with
      | .running f => f.pc == .recheck 16 && f.node == some 16
      | _ => false) (by decide)
  split at hp
  · next f ht =>
    simp only [Bool.and_eq_true, beq_iff_eq] at hp
    exact ⟨s, f, hs, ht, hp.1, hp.2, running_at_head hs ht⟩
  · cases hp

/-! ## The tag agreement -/

/-- The tag agreement `insert` and `expand_map` rely on: a non-null cell of `head` has its
    array-node bit set exactly when it points to an `ArrayNode`. -/
def TagAgreement (s : HState K V) : Prop :=
  ∀ (i : Nat) (w : Word), s.head[i]? = some w → w ≠ 0 →
    (isArrayNode w = true ↔ ∃ cells, s.mem (unmarkArrayNode w) = some (.array cells))

/-- After one expansion, `head[0]` points to an `ArrayNode` through a word whose array-node bit
    is clear. -/
theorem tag_agreement_fails : ¬ ∀ s : HState Nat Nat, Reachable natHash s → TagAgreement s := by
  intro hall
  have hsome : ((HState.new natHash).run expandingInsert).isSome = true := by decide
  obtain ⟨s, hs⟩ := Option.isSome_iff_exists.mp hsome
  have hcell : ((HState.new natHash).run expandingInsert).map (fun s => s.head[0]?) =
      some (some 16) := by decide
  have hmem : ((HState.new natHash).run expandingInsert).map (fun s => s.mem 16) =
      some (some (.array ((List.replicate headSize 0).set 0 8))) := by decide
  rw [hs, Option.map_some', Option.some_inj] at hcell hmem
  have := (hall s ⟨_, hs⟩ 0 16 hcell (by decide)).mpr ⟨_, hmem⟩
  exact absurd this (by decide)

/-- Inserting key 0 and then key 64 in one thread: the first call returns `Ok`, and the second,
    whose hash differs, panics at line 134 instead of returning. -/
theorem second_colliding_insert_panics :
    ((HState.new natHash).run firstInsert).map (·.threads 0) = some (.returned .ok) ∧
    ((HState.new natHash).run (expandingInsert ++ [.step 0 ⟨16, false⟩, .step 0 ⟨16, false⟩])).map
      (·.threads 0) = some (.panicked 134) := by
  decide

/-- Two threads collide with the leaf of key 0 and both enter `expand_map`; thread 1 publishes
    its `ArrayNode` first. Thread 2 then reads that `ArrayNode` as the leaf to displace and
    panics at line 66, and thread 1 panics at line 134. -/
def racingExpansions : List (Action Nat Nat) :=
  firstInsert ++
  [.invoke 1 64 20, .step 1 ⟨16, false⟩, .step 1 ⟨16, false⟩, .step 1 ⟨16, false⟩,
   .invoke 2 128 30, .step 2 ⟨24, false⟩, .step 2 ⟨24, false⟩, .step 2 ⟨24, false⟩] ++
  List.replicate 5 (.step 1 ⟨16, false⟩) ++ List.replicate 3 (.step 2 ⟨24, false⟩) ++
  List.replicate 2 (.step 1 ⟨16, false⟩)

theorem racing_expansions_panic :
    ((HState.new natHash).run racingExpansions).map (fun s => (s.threads 1, s.threads 2)) =
      some (.panicked 134, .panicked 66) := by
  decide

end Rustcurrent.HashMap
