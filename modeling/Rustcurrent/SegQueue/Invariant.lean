import Rustcurrent.SegQueue.History

/-!
# The invariant of the queue machine

`Inv` holds in every state reachable from `SegQueueOld::new(k)`: the memory has its `Shape` and
the history its `Timeline`, the running enqueue calls have distinct items, and every thread knows
what its program point says it knows (`Thread.Ok`): the segments it loaded are on the chain, the
`next` it read is still there once non-null, the segment it is about to link is fresh, and so on.

The proof is one step lemma per function of the source (`advanceTail_step`, `enqStep_step`,
`deqStep_step`), each a case analysis over the function's program points, on top of one lemma
per memory operation (`Steps`). A thread's facts are built from facts that a step of another
thread keeps (`Thread.Ok.mono`), so the other threads need no case analysis.
-/

namespace Rustcurrent.SegQueue

variable {V : Type}

namespace Shared

/-- A memory step that keeps both invariants and that the other threads see as a `Grows` step
    leaving every call's record alone. -/
structure Steps (s s' : Shared V) : Prop where
  shape : s'.Shape
  timeline : s'.Timeline
  grows : Grows s s'
  keeps : ∀ p, Keeps s s' p

variable {s : Shared V}

theorem Keeps.refl (s : Shared V) (p : Nat) : Keeps s s p := ⟨rfl, rfl, rfl⟩

theorem Steps.refl (hs : s.Shape) (ht : s.Timeline) : Steps s s :=
  ⟨hs, ht, Grows.refl s, Keeps.refl s⟩

/-- Two memory steps of which the first moves neither `head`, `tail` nor a `next`. -/
theorem Steps.trans {s₂ s₃ : Shared V} (h₁ : Steps s s₂) (h₂ : Steps s₂ s₃)
    (hh : s₂.head = s.head) (ht : s₂.tail = s.tail) (hn : ∀ a, s₂.nextOf a = s.nextOf a) :
    Steps s s₃ := by
  obtain ⟨-, -, g₁, k₁⟩ := h₁
  obtain ⟨hs₃, ht₃, g₂, k₂⟩ := h₂
  refine ⟨hs₃, ht₃, ⟨g₂.k_eq.trans g₁.k_eq, g₁.chain_prefix.trans g₂.chain_prefix,
    fun a ha h0 h0' => ?_, ?_, ?_, fun a h => ?_, fun a h ha => ?_,
    fun p h => g₂.box_mono p (g₁.box_mono p h)⟩, fun p => ?_⟩
  · have h0₂ : s₂.nextOf a = 0 := (hn a).trans h0
    rw [g₂.chain_eq a (g₁.chain_mem ha) h0₂ h0', g₁.chain_eq a ha h0 h0₂]
  · rcases g₂.head_step with h | h
    · exact .inl (h.trans hh)
    · exact .inr (by rwa [hh, hn] at h)
  · rcases g₂.tail_step with h | h
    · exact .inl (h.trans ht)
    · exact .inr (by rwa [ht, hn] at h)
  · rw [g₂.next_eq a ((hn a).symm ▸ h), hn]
  · have ha₂ : a ∉ s₂.hist.chain := fun h₂ => ha (g₂.chain_prefix.subset h₂)
    rw [g₂.seg_eq a (by rwa [g₁.seg_eq a h ha₂]) ha, g₁.seg_eq a h ha₂]
  · exact ⟨(k₂ p).invoked.trans (k₁ p).invoked, (k₂ p).invTail.trans (k₁ p).invTail,
      (k₂ p).returned.trans (k₁ p).returned⟩

/-- Operations that write neither a `next` nor the history other than the chain, and move no
    tail backwards, keep the timeline. -/
theorem Steps.of_shape {s' : Shared V} (hs : s'.Shape ∧ Grows s s') (ht : s.Timeline)
    (hs₀ : s.Shape) (hclock : s'.hist.clock = s.hist.clock) (hinv : s'.hist.invokedAt = s.hist.invokedAt)
    (hret : s'.hist.returnedAt = s.hist.returnedAt) (hit : s'.hist.invTail = s.hist.invTail)
    (hrt : s'.hist.retTail = s.hist.retTail)
    (hdata : ∀ a sg', s'.segs a = some sg' → ∀ b ∈ sg'.data, s.IsItem b →
      ∃ sg, s.segs a = some sg ∧ b ∈ sg.data) : Steps s s' :=
  ⟨hs.1, ht.of_mono hclock hinv hret hit hrt (hs.2.tail_le hs₀) hs.2.box_mono hdata, hs.2,
    fun p => ⟨congrFun hinv p, congrFun hit p, congrFun hret p⟩⟩

theorem Steps.newBox (hs : s.Shape) (ht : s.Timeline) (c : Option V) : Steps s (s.newBox c) :=
  Steps.of_shape (hs.newBox c) ht hs rfl rfl rfl rfl rfl fun _ sg' h _ hb _ => ⟨sg', h, hb⟩

theorem Steps.newSegment (hs : s.Shape) (ht : s.Timeline) : Steps s s.newSegment := by
  refine Steps.of_shape hs.newSegment ht hs rfl rfl rfl rfl rfl fun a sg' h b hb hi => ?_
  by_cases haF : a = s.freshSeg
  · have h' : s.newSegment.segs a = some ⟨List.range' s.bound s.k, 0, false⟩ := by
      rw [haF]; exact store_same ..
    rw [h', Option.some_inj] at h
    subst h
    have := (hs.box_fresh b (ht.item_box b hi)).2
    simp [List.mem_range'_1] at hb
    omega
  · exact ⟨sg', by simpa [Shared.newSegment, store_ne _ haF] using h, hb⟩

theorem Steps.setSlot (hs : s.Shape) (ht : s.Timeline) {a i p : Nat} (ha : a ∈ s.hist.chain)
    (hp : s.IsBox p) (hitem : s.IsItem p → s.hist.invTail p ≤ a ∧ a ≤ s.tail ∧ s.hist.returnedAt p = none) :
    Steps s (s.setSlot a i p) :=
  ⟨(hs.setSlot ha hp).1, ht.setSlot hitem, (hs.setSlot ha hp).2, fun _ => ⟨rfl, rfl, rfl⟩⟩

/-- Writing a field other than `data` of a segment. -/
theorem modifySeg_data {a : Nat} {f : Segment → Segment} (hf : ∀ sg, (f sg).data = sg.data)
    {x : Nat} {sg' : Segment} (h : (s.modifySeg a f).segs x = some sg') :
    ∃ sg, s.segs x = some sg ∧ sg'.data = sg.data := by
  rw [modifySeg_segs] at h
  split_ifs at h with hxa
  · subst hxa
    obtain ⟨sg, h₀, rfl⟩ := Option.map_eq_some'.mp h
    exact ⟨sg, h₀, hf sg⟩
  · exact ⟨sg', h, rfl⟩

theorem Steps.linkNext (hs : s.Shape) (ht : s.Timeline) {old n : Nat} (ho : old ∈ s.hist.chain)
    (hz : s.nextOf old = 0) (hn : s.Fresh n) : Steps s (s.linkNext old n) :=
  Steps.of_shape (hs.linkNext ho hz hn) ht hs rfl rfl rfl rfl rfl fun _ _ h _ hb _ => by
    obtain ⟨sg, h₀, hd⟩ := @modifySeg_data V s old (fun sg => { sg with next := n }) (fun _ => rfl) _ _ h
    exact ⟨sg, h₀, hd ▸ hb⟩

theorem Steps.setDeleted (hs : s.Shape) (ht : s.Timeline) {a : Nat} (ha : a ∈ s.hist.chain)
    (hlt : a < s.head) : Steps s (s.setDeleted a) :=
  Steps.of_shape (hs.setDeleted ha hlt) ht hs rfl rfl rfl rfl rfl fun _ _ h _ hb _ => by
    obtain ⟨sg, h₀, hd⟩ := @modifySeg_data V s a (fun sg => { sg with deleted := true }) (fun _ => rfl) _ _ h
    exact ⟨sg, h₀, hd ▸ hb⟩

theorem Steps.casTail (hs : s.Shape) (ht : s.Timeline) {old x : Nat}
    (h : s.tail = old → x ≠ 0 ∧ s.nextOf old = x) : Steps s (s.casTail old x) := by
  have := hs.casTail h
  unfold Shared.casTail at this ⊢
  split_ifs at this ⊢
  · exact Steps.of_shape this ht hs rfl rfl rfl rfl rfl fun _ sg' h _ hb _ => ⟨sg', h, hb⟩
  · exact Steps.refl hs ht

theorem Steps.swingHead (hs : s.Shape) (ht : s.Timeline) {hn : Nat} (h0 : hn ≠ 0)
    (hnext : s.nextOf s.head = hn) (hle : hn ≤ s.tail) : Steps s { s with head := hn } :=
  Steps.of_shape (hs.swingHead h0 hnext hle) ht hs rfl rfl rfl rfl rfl
    fun _ sg' h _ hb _ => ⟨sg', h, hb⟩

theorem Steps.replaceBox (hs : s.Shape) (ht : s.Timeline) {p : Nat} (hp : s.IsBox p) :
    Steps s (s.replaceBox p) :=
  Steps.of_shape (hs.replaceBox hp) ht hs rfl rfl rfl rfl rfl fun _ sg' h _ hb _ => ⟨sg', h, hb⟩

theorem Steps.noteTaken (hs : s.Shape) (ht : s.Timeline) (p : Nat) : Steps s (s.noteTaken p) :=
  Steps.of_shape (hs.of_same rfl rfl rfl rfl rfl rfl rfl) ht hs rfl rfl rfl rfl rfl
    fun _ sg' h _ hb _ => ⟨sg', h, hb⟩

variable (s)

/-- `tl` was loaded from `tail` by the enqueue of `b`, after its invocation. -/
def Loaded (b tl : Nat) : Prop := tl ∈ s.hist.chain ∧ tl ≤ s.tail ∧ s.hist.invTail b ≤ tl

/-- `h` was loaded from `head`. -/
def Below (h : Nat) : Prop := h ∈ s.hist.chain ∧ h ≤ s.head

/-- `nn` is an allocated box that is no call's item. -/
def Sentinel (nn : Nat) : Prop := s.IsBox nn ∧ s.hist.invokedAt nn = none

end Shared

open Shared

/-- What a thread inside `advance_tail` knows. -/
def TailPc.Ok (s : Shared V) : TailPc → Prop
  | .loadTail old | .loadNext old => old ∈ s.hist.chain
  | .recheck old next => old ∈ s.hist.chain ∧ (next ≠ 0 → s.nextOf old = next)
  | .link old new => old ∈ s.hist.chain ∧ (s.nextOf old = 0 → s.Fresh new)
  | .swingNew old new | .swing old new => old ∈ s.hist.chain ∧ new ≠ 0 ∧ s.nextOf old = new

/-- What a thread inside `enqueue` of the item `b` knows. -/
def EnqPc.Ok (s : Shared V) (b : Nat) : EnqPc → Prop
  | .loadTail => True
  | .checkTail tl | .scan tl _ _ | .scanRead tl _ _ _ | .recheck tl _ _ | .cas tl _ _
  | .commitLoad tl _ | .commitHead tl _ => s.Loaded b tl
  | .commitDeleted tl _ _ nn | .commitSelf tl _ _ nn | .commitDeleted2 tl _ nn
  | .commitUndo tl _ nn => s.Loaded b tl ∧ s.Sentinel nn
  | .advanceTail pc => TailPc.Ok s pc

/-- What a thread inside `dequeue` knows. -/
def DeqPc.Ok (s : Shared V) : DeqPc → Prop
  | .loadHead => True
  | .checkHead h | .scan h _ _ | .scanRead h _ _ _ | .loadTail h none | .loadNext h
  | .headLoad h | .headLoadTail h => s.Below h
  | .loadTail h (some (_, p)) | .cas h _ p => s.Below h ∧ s.IsBox p
  | .checkHead2 h tl found =>
    s.Below h ∧ tl ∈ s.hist.chain ∧ ∀ i p, found = some (i, p) → s.IsBox p
  | .advanceTail h _ p pc => s.Below h ∧ s.IsBox p ∧ TailPc.Ok s pc
  | .take p => s.IsBox p
  | .headTailNext h tl => s.Below h ∧ tl ∈ s.hist.chain ∧ h ≤ tl ∧ tl ≤ s.tail
  | .headNext h tl tn =>
    s.Below h ∧ tl ∈ s.hist.chain ∧ h ≤ tl ∧ tl ≤ s.tail ∧ (tn ≠ 0 → s.nextOf tl = tn)
  | .headRecheck h tl tn hn =>
    s.Below h ∧ tl ∈ s.hist.chain ∧ h ≤ tl ∧ tl ≤ s.tail ∧ (tn ≠ 0 → s.nextOf tl = tn) ∧
      (h ≠ tl → hn ≠ 0 ∧ s.nextOf h = hn) ∧ (h = tl → tn ≠ 0 → hn = tn)
  | .headCheckTail h hn tl tn | .headSwingTail h hn tl tn =>
    s.Below h ∧ tl = h ∧ tn ≠ 0 ∧ s.nextOf h = tn ∧ hn = tn
  | .headSwing h hn => s.Below h ∧ (s.head = h → hn ≠ 0 ∧ s.nextOf h = hn ∧ hn ≤ s.tail)
  | .headDelete h => h ∈ s.hist.chain ∧ h < s.head

/-- The item of a thread's running enqueue. -/
def Thread.item : Thread V → Option Nat
  | .enqueue b _ => some b
  | _ => none

/-- What a thread knows. -/
def Thread.Ok (s : Shared V) : Thread V → Prop
  | .enqueue b pc => s.IsItem b ∧ s.hist.returnedAt b = none ∧ EnqPc.Ok s b pc
  | .dequeue pc => DeqPc.Ok s pc
  | _ => True

/-! ## A thread's facts survive the other threads' steps -/

section Mono

variable {s s' : Shared V} (hs : s.Shape) (g : Grows s s')
include hs g

theorem Loaded.mono {b tl : Nat} (hk : Keeps s s' b) (h : s.Loaded b tl) : s'.Loaded b tl :=
  ⟨g.chain_mem h.1, h.2.1.trans (g.tail_le hs), hk.invTail ▸ h.2.2⟩

theorem Below.mono {h : Nat} (hb : s.Below h) : s'.Below h :=
  ⟨g.chain_mem hb.1, hb.2.trans (g.head_le hs)⟩

omit hs in
theorem Sentinel.mono {nn : Nat} (hk : Keeps s s' nn) (h : s.Sentinel nn) : s'.Sentinel nn :=
  ⟨g.box_mono _ h.1, hk.invoked ▸ h.2⟩

omit hs in
/-- A non-null `next` read earlier is still there. -/
theorem next_mono {a n : Nat} (hn : n ≠ 0 → s.nextOf a = n) : n ≠ 0 → s'.nextOf a = n :=
  fun h0 => (g.next_eq a ((hn h0).symm ▸ h0)).trans (hn h0)

omit hs in
theorem TailPc.Ok.mono {pc : TailPc} (h : TailPc.Ok s pc) : TailPc.Ok s' pc := by
  cases pc with
  | loadTail old | loadNext old => exact g.chain_mem h
  | recheck old next => exact ⟨g.chain_mem h.1, next_mono g h.2⟩
  | link old new =>
    refine ⟨g.chain_mem h.1, fun hz' => ?_⟩
    have hz : s.nextOf old = 0 := by
      by_contra hz
      exact hz ((g.next_eq old hz).symm.trans hz')
    obtain ⟨hlt, d, hd⟩ := h.2 hz
    have hc := g.chain_eq old h.1 hz hz'
    refine ⟨hc ▸ hlt, d, ?_⟩
    rw [g.seg_eq new (by simp [hd]) (hc ▸ fun hm => Nat.lt_irrefl _ (hlt new hm))]
    exact hd
  | swingNew old new | swing old new =>
    exact ⟨g.chain_mem h.1, h.2.1, next_mono g (fun _ => h.2.2) h.2.1⟩

theorem EnqPc.Ok.mono {b : Nat} {pc : EnqPc} (hkb : Keeps s s' b)
    (hkn : ∀ nn, s.Sentinel nn → Keeps s s' nn) (h : EnqPc.Ok s b pc) : EnqPc.Ok s' b pc := by
  cases pc with
  | loadTail => trivial
  | checkTail tl | scan tl _ _ | scanRead tl _ _ _ | recheck tl _ _ | cas tl _ _
  | commitLoad tl _ | commitHead tl _ => exact Loaded.mono hs g hkb h
  | commitDeleted tl _ _ nn | commitSelf tl _ _ nn | commitDeleted2 tl _ nn | commitUndo tl _ nn =>
    exact ⟨Loaded.mono hs g hkb h.1, Sentinel.mono g (hkn nn h.2) h.2⟩
  | advanceTail pc => exact TailPc.Ok.mono g h

theorem DeqPc.Ok.mono {pc : DeqPc} (h : DeqPc.Ok s pc) : DeqPc.Ok s' pc := by
  have hb : ∀ {x}, s.Below x → s'.Below x := fun hb => Below.mono hs g hb
  have hc : ∀ {a}, a ∈ s.hist.chain → a ∈ s'.hist.chain := g.chain_mem
  have ht := g.tail_le hs
  have hn := @next_mono _ _ _ g
  cases pc with
  | loadHead => trivial
  | checkHead | scan | scanRead | loadNext | headLoad | headLoadTail => exact hb h
  | loadTail _ found =>
    cases found with
    | none => exact hb h
    | some => exact ⟨hb h.1, g.box_mono _ h.2⟩
  | cas => exact ⟨hb h.1, g.box_mono _ h.2⟩
  | checkHead2 => exact ⟨hb h.1, hc h.2.1, fun i p hf => g.box_mono _ (h.2.2 i p hf)⟩
  | advanceTail => exact ⟨hb h.1, g.box_mono _ h.2.1, TailPc.Ok.mono g h.2.2⟩
  | take => exact g.box_mono _ h
  | headTailNext => exact ⟨hb h.1, hc h.2.1, h.2.2.1, h.2.2.2.trans ht⟩
  | headNext => exact ⟨hb h.1, hc h.2.1, h.2.2.1, h.2.2.2.1.trans ht, hn h.2.2.2.2⟩
  | headRecheck =>
    obtain ⟨h1, h2, h3, h4, h5, h6, h7⟩ := h
    exact ⟨hb h1, hc h2, h3, h4.trans ht, hn h5,
      fun hne => ⟨(h6 hne).1, hn (fun _ => (h6 hne).2) (h6 hne).1⟩, h7⟩
  | headCheckTail | headSwingTail =>
    obtain ⟨h1, h2, h3, h4, h5⟩ := h
    exact ⟨hb h1, h2, h3, hn (fun _ => h4) h3, h5⟩
  | headSwing x =>
    refine ⟨hb h.1, fun hh => ?_⟩
    have hh' : s.head = x := le_antisymm (hh ▸ g.head_le hs) h.1.2
    obtain ⟨h1, h2, h3⟩ := h.2 hh'
    exact ⟨h1, hn (fun _ => h2) h1, h3.trans ht⟩
  | headDelete => exact ⟨hc h.1, Nat.lt_of_lt_of_le h.2 (g.head_le hs)⟩

/-- A thread's facts survive a step of another thread, whose running call, if any, has the item
    `m`: the step keeps the records of every other call. -/
theorem Thread.Ok.mono {th : Thread V} {m : Option Nat} (h : th.Ok s)
    (hk : ∀ p, s.IsBox p → some p ≠ m → Keeps s s' p) (hm : ∀ b, m = some b → s.IsItem b)
    (hth : ∀ b, th.item = some b → some b ≠ m) (ht : s.Timeline) : th.Ok s' := by
  cases th with
  | enqueue b pc =>
    have hkb := hk b (ht.item_box b h.1) (hth b rfl)
    refine ⟨by unfold IsItem; rw [hkb.invoked]; exact h.1, hkb.returned ▸ h.2.1, EnqPc.Ok.mono hs g hkb (fun nn hn => ?_) h.2.2⟩
    refine hk nn hn.1 fun hnm => ?_
    have := hm nn hnm.symm
    simp [IsItem, hn.2] at this
  | dequeue pc => exact DeqPc.Ok.mono hs g h
  | idle | enqueued | dequeued _ => trivial

end Mono

/-! ## One step of a thread -/

/-- What a step of a thread whose running call has the item `m`, if any, does: the memory `s`
    becomes `s'` and the thread becomes `th'`. -/
structure ThreadStep (s s' : Shared V) (m : Option Nat) (th' : Thread V) : Prop where
  shape : s'.Shape
  timeline : s'.tick.Timeline
  grows : Grows s s'
  keeps : ∀ p, s.IsBox p → some p ≠ m → Keeps s s' p
  ok : th'.Ok s'
  item : ∀ b, th'.item = some b → some b = m

section Step

variable {s : Shared V} (hs : s.Shape) (ht : s.Timeline)
include hs ht

theorem Shared.sentinel_newBox : (s.newBox none).Sentinel s.bound :=
  ⟨by simp [IsBox, Shared.newBox],
    ht.not_item_of_not_box fun h => Nat.lt_irrefl _ (hs.box_fresh _ h).2⟩

/-- One access of `advance_tail`. -/
theorem advanceTail_step {pc : TailPc} (h : TailPc.Ok s pc) :
    Steps s (s.advanceTail pc).1 ∧
      ∀ pc', (s.advanceTail pc).2 = some pc' → TailPc.Ok (s.advanceTail pc).1 pc' := by
  cases pc with
  | loadTail old =>
    refine ⟨Steps.refl hs ht, fun pc' hpc => ?_⟩
    simp only [Shared.advanceTail] at hpc
    split_ifs at hpc
    cases hpc
    exact h
  | loadNext old => exact ⟨Steps.refl hs ht, fun pc' hpc => by cases hpc; exact ⟨h, fun _ => rfl⟩⟩
  | recheck old next =>
    simp only [Shared.advanceTail]
    split_ifs with h1 h2
    · refine ⟨Steps.newSegment hs ht, fun pc' hpc => ?_⟩
      cases hpc
      refine ⟨h.1, fun _ => ⟨fun a ha => ?_, _, store_same ..⟩⟩
      have := (hs.seg_fresh a (hs.chain_seg a ha)).2
      unfold freshSeg
      omega
    · exact ⟨Steps.refl hs ht, fun pc' hpc => by cases hpc; exact ⟨h.1, h2, h.2 h2⟩⟩
    · exact ⟨Steps.refl hs ht, fun pc' hpc => by cases hpc⟩
  | link old new =>
    simp only [Shared.advanceTail]
    split_ifs with hz
    · obtain ⟨_, d, hd⟩ := h.2 hz
      refine ⟨Steps.linkNext hs ht h.1 hz (h.2 hz), fun pc' hpc => ?_⟩
      cases hpc
      exact ⟨List.mem_append_left _ h.1, (hs.seg_fresh new (by simp [hd])).1.ne',
        nextOf_linkNext_self s new (hs.chain_seg old h.1)⟩
    · exact ⟨Steps.refl hs ht, fun pc' hpc => by cases hpc⟩
  | swingNew old new | swing old new =>
    exact ⟨Steps.casTail hs ht fun _ => h.2, fun pc' hpc => by cases hpc⟩

omit hs ht in
theorem EnqPc.scanNext_ok {b tl : Nat} (h : s.Loaded b tl) :
    ∀ l, EnqPc.Ok s b (EnqPc.scanNext tl l)
  | [] => h.1
  | _ :: _ => h

omit hs ht in
/-- A step of an enqueue that goes on. -/
theorem ThreadStep.enq {s' : Shared V} {b : Nat} {pc' : EnqPc} (hst : Steps s s') (hb : s.IsItem b)
    (hr : s.hist.returnedAt b = none) (h : EnqPc.Ok s' b pc') :
    ThreadStep s s' (some b) (.enqueue b pc') :=
  ⟨hst.shape, hst.timeline.tick, hst.grows, fun p _ _ => hst.keeps p,
    ⟨by unfold IsItem; rw [(hst.keeps b).invoked]; exact hb, (hst.keeps b).returned ▸ hr, h⟩,
    fun _ h => by cases h; rfl⟩

/-- The step at which `enqueue` of `b` returns. -/
theorem ThreadStep.enqueueReturn {b : Nat} (hb : s.IsItem b) :
    ThreadStep s (s.enqueueReturn b) (some b) .enqueued := by
  obtain ⟨hs', g⟩ : (s.enqueueReturn b).Shape ∧ Grows s (s.enqueueReturn b) :=
    hs.of_same rfl rfl rfl rfl rfl rfl rfl
  exact ⟨hs', ht.enqueueReturn hb, g, fun p _ hp => ⟨rfl, rfl,
    store_ne _ fun h => hp (congrArg some h)⟩, trivial, fun _ h => by cases h⟩

omit hs ht in
/-- A step of a dequeue. -/
theorem ThreadStep.deq {s' : Shared V} {th' : Thread V} (hst : Steps s s') (h : th'.Ok s')
    (hth : th'.item = none) : ThreadStep s s' none th' :=
  ⟨hst.shape, hst.timeline.tick, hst.grows, fun p _ _ => hst.keeps p, h,
    fun _ hb => by rw [hth] at hb; cases hb⟩

/-- One access inside `enqueue`. -/
theorem enqStep_step {b : Nat} {c : Choice} {pc : EnqPc} (hok : (Thread.enqueue b pc : Thread V).Ok s) :
    ThreadStep s (s.enqStep b c pc).1 (some b) (s.enqStep b c pc).2 := by
  obtain ⟨hb, hr, h⟩ := hok
  have hrefl := Steps.refl hs ht
  cases pc with
  | loadTail => exact ThreadStep.enq hrefl hb hr ⟨hs.tail_mem, le_rfl, ht.invTail_le b hb⟩
  | checkTail tl =>
    simp only [Shared.enqStep]
    split_ifs
    · exact ThreadStep.enq hrefl hb hr (EnqPc.scanNext_ok h _)
    · exact ThreadStep.enq hrefl hb hr trivial
  | scan => exact ThreadStep.enq hrefl hb hr h
  | scanRead tl i p rest =>
    simp only [Shared.enqStep]
    split
    · exact ThreadStep.enq hrefl hb hr (EnqPc.scanNext_ok h _)
    · exact ThreadStep.enq hrefl hb hr h
  | recheck =>
    simp only [Shared.enqStep]
    split_ifs
    · exact ThreadStep.enq hrefl hb hr h
    · exact ThreadStep.enq hrefl hb hr trivial
  | cas tl i p =>
    simp only [Shared.enqStep]
    split_ifs
    · have hst : Steps s (s.setSlot tl i b) :=
        Steps.setSlot hs ht h.1 (ht.item_box b hb) fun _ => ⟨h.2.2, h.2.1, hr⟩
      exact ThreadStep.enq hst hb hr (Loaded.mono hs hst.grows (hst.keeps b) h)
    · exact ThreadStep.enq hrefl hb hr trivial
  | commitLoad =>
    simp only [Shared.enqStep]
    split_ifs
    · exact ThreadStep.enq hrefl hb hr h
    · exact ThreadStep.enqueueReturn hs ht hb
  | commitHead =>
    have hst := Steps.newBox hs ht none
    exact ThreadStep.enq hst hb hr ⟨Loaded.mono hs hst.grows (hst.keeps b) h, sentinel_newBox hs ht⟩
  | commitDeleted =>
    simp only [Shared.enqStep]
    split_ifs
    · exact ThreadStep.enq hrefl hb hr h
    · exact ThreadStep.enq hrefl hb hr h
    · exact ThreadStep.enq hrefl hb hr h
  | commitSelf =>
    simp only [Shared.enqStep]
    split_ifs
    · exact ThreadStep.enqueueReturn hs ht hb
    · exact ThreadStep.enq hrefl hb hr h
  | commitDeleted2 =>
    simp only [Shared.enqStep]
    split_ifs
    · exact ThreadStep.enq hrefl hb hr h
    · exact ThreadStep.enqueueReturn hs ht hb
  | commitUndo tl i nn =>
    simp only [Shared.enqStep]
    split_ifs
    · refine ThreadStep.enq (Steps.setSlot hs ht h.1.1 h.2.1 fun hi => ?_) hb hr trivial
      simp [IsItem, h.2.2] at hi
    · exact ThreadStep.enqueueReturn hs ht hb
  | advanceTail pc =>
    obtain ⟨hst, hpc⟩ := advanceTail_step hs ht h
    simp only [Shared.enqStep]
    split
    · next s' pc' heq =>
      rw [heq] at hst hpc
      exact ThreadStep.enq hst hb hr (hpc pc' rfl)
    · next s' heq =>
      rw [heq] at hst
      exact ThreadStep.enq hst hb hr trivial

omit hs ht in
theorem DeqPc.scanNext_ok {x : Nat} (h : s.Below x) : ∀ l, DeqPc.Ok s (DeqPc.scanNext x l)
  | [] => h
  | _ :: _ => h

omit hs ht in
theorem Shared.isBox_of_boxAt {p : Nat} {v : V} (hv : s.boxAt p = some v) : s.IsBox p := by
  unfold boxAt at hv
  unfold IsBox
  cases hp : s.boxes p <;> simp_all

/-- One access inside `dequeue`. -/
theorem deqStep_step {c : Choice} {pc : DeqPc} (h : DeqPc.Ok s pc) :
    ThreadStep s (s.deqStep c pc).1 none (s.deqStep c pc).2 := by
  have hrefl := Steps.refl hs ht
  cases pc with
  | loadHead => exact ThreadStep.deq hrefl ⟨hs.head_mem, le_rfl⟩ rfl
  | checkHead =>
    simp only [Shared.deqStep]
    split_ifs
    · exact ThreadStep.deq hrefl (DeqPc.scanNext_ok h _) rfl
    · exact ThreadStep.deq hrefl trivial rfl
  | scan => exact ThreadStep.deq hrefl h rfl
  | scanRead =>
    simp only [Shared.deqStep]
    split
    · next hv => exact ThreadStep.deq hrefl ⟨h, isBox_of_boxAt hv⟩ rfl
    · exact ThreadStep.deq hrefl (DeqPc.scanNext_ok h _) rfl
  | loadTail x found =>
    refine ThreadStep.deq hrefl ?_ rfl
    rcases found with _ | ⟨i, p⟩
    · exact ⟨h, hs.tail_mem, fun _ _ h => by cases h⟩
    · exact ⟨h.1, hs.tail_mem, fun _ _ hf => by cases hf; exact h.2⟩
  | checkHead2 x tl found =>
    rcases found with _ | ⟨i, p⟩
    · simp only [Shared.deqStep]
      split_ifs
      · exact ThreadStep.deq hrefl h.1 rfl
      · exact ThreadStep.deq hrefl trivial rfl
    · simp only [Shared.deqStep]
      split_ifs
      · exact ThreadStep.deq hrefl ⟨h.1, h.2.2 i p rfl, h.2.1⟩ rfl
      · exact ThreadStep.deq hrefl ⟨h.1, h.2.2 i p rfl⟩ rfl
      · exact ThreadStep.deq hrefl trivial rfl
  | advanceTail x i p pc =>
    obtain ⟨hst, hpc⟩ := advanceTail_step hs ht h.2.2
    simp only [Shared.deqStep]
    split
    · next s' pc' heq =>
      rw [heq] at hst hpc
      exact ThreadStep.deq hst ⟨Below.mono hs hst.grows h.1, hst.grows.box_mono _ h.2.1, hpc pc' rfl⟩ rfl
    · next s' heq =>
      rw [heq] at hst
      exact ThreadStep.deq hst ⟨Below.mono hs hst.grows h.1, hst.grows.box_mono _ h.2.1⟩ rfl
  | cas x i p =>
    have h₁ := Steps.newBox hs ht none
    simp only [Shared.deqStep]
    split_ifs
    · have h₂ : Steps (s.newBox none) ((s.newBox none).setSlot x i s.bound) :=
        Steps.setSlot h₁.shape h₁.timeline h.1.1 (sentinel_newBox hs ht).1 fun hi => by
          simp [IsItem, (sentinel_newBox hs ht).2] at hi
      have h₃ := Steps.noteTaken h₂.shape h₂.timeline p
      have hst := h₁.trans (h₂.trans h₃ rfl rfl fun _ => nextOf_setSlot ..) rfl rfl fun _ => rfl
      exact ThreadStep.deq hst (hst.grows.box_mono _ h.2) rfl
    · exact ThreadStep.deq h₁ trivial rfl
  | take p => exact ThreadStep.deq (Steps.replaceBox hs ht h) trivial rfl
  | loadNext =>
    simp only [Shared.deqStep]
    split_ifs
    · exact ThreadStep.deq hrefl trivial rfl
    · exact ThreadStep.deq hrefl h rfl
  | headLoad =>
    simp only [Shared.deqStep]
    split_ifs
    · exact ThreadStep.deq hrefl h rfl
    · exact ThreadStep.deq hrefl trivial rfl
  | headLoadTail =>
    exact ThreadStep.deq hrefl ⟨h, hs.tail_mem, h.2.trans hs.head_le_tail, le_rfl⟩ rfl
  | headTailNext => exact ThreadStep.deq hrefl ⟨h.1, h.2.1, h.2.2.1, h.2.2.2, fun _ => rfl⟩ rfl
  | headNext x tl tn =>
    obtain ⟨h1, h2, h3, h4, h5⟩ := h
    refine ThreadStep.deq hrefl ⟨h1, h2, h3, h4, h5, fun hne => ⟨?_, rfl⟩, fun hx htn => ?_⟩ rfl
    · exact (hs.linked.next_le h1.1 h2 (lt_of_le_of_ne h3 hne)).1
    · exact hx ▸ h5 htn
  | headRecheck x tl tn hn =>
    obtain ⟨h1, h2, h3, h4, h5, h6, h7⟩ := h
    simp only [Shared.deqStep]
    split_ifs with hx htl htn
    · exact ThreadStep.deq hrefl trivial rfl
    · exact ThreadStep.deq hrefl ⟨h1, htl, htn, htl ▸ h5 htn, h7 htl.symm htn⟩ rfl
    · obtain ⟨hn0, hnx⟩ := h6 (Ne.symm htl)
      have hle := (hs.linked.next_le h1.1 h2 (lt_of_le_of_ne h3 (Ne.symm htl))).2
      exact ThreadStep.deq hrefl ⟨h1, fun _ => ⟨hn0, hnx, hnx ▸ hle.trans h4⟩⟩ rfl
    · exact ThreadStep.deq hrefl trivial rfl
  | headCheckTail x hn tl tn =>
    obtain ⟨h1, h2, h3, h4, h5⟩ := h
    simp only [Shared.deqStep]
    split_ifs with htl
    · exact ThreadStep.deq hrefl ⟨h1, h2, h3, h4, h5⟩ rfl
    · have hlt : x < s.tail :=
        lt_of_le_of_ne (h1.2.trans hs.head_le_tail) fun hx => htl (h2.trans hx)
      have hle := (hs.linked.next_le h1.1 hs.tail_mem hlt).2
      exact ThreadStep.deq hrefl ⟨h1, fun _ => ⟨h5 ▸ h3, h5 ▸ h4, h5 ▸ h4 ▸ hle⟩⟩ rfl
  | headSwingTail x hn tl tn =>
    simp only [Shared.deqStep]
    obtain ⟨h1, rfl, h3, h4, rfl⟩ := h
    have hst := Steps.casTail hs ht fun _ => ⟨h3, h4⟩
    refine ThreadStep.deq hst ⟨Below.mono hs hst.grows h1,
      fun _ => ⟨h3, next_mono hst.grows (fun _ => h4) h3, ?_⟩⟩ rfl
    simp only [Shared.casTail]
    split_ifs with htl
    · exact le_rfl
    · have hlt : tl < s.tail := lt_of_le_of_ne (h1.2.trans hs.head_le_tail) (Ne.symm htl)
      exact h4 ▸ (hs.linked.next_le h1.1 hs.tail_mem hlt).2
  | headSwing x hn =>
    simp only [Shared.deqStep]
    split_ifs with hx
    · obtain ⟨hn0, hnx, hle⟩ := h.2 hx
      have hst := Steps.swingHead hs ht hn0 (hx ▸ hnx) hle
      exact ThreadStep.deq hst ⟨hst.grows.chain_mem h.1.1,
        hnx ▸ (hs.linked.next_mem h.1.1 (hnx ▸ hn0)).2⟩ rfl
    · exact ThreadStep.deq hrefl trivial rfl
  | headDelete => exact ThreadStep.deq (Steps.setDeleted hs ht h.1 h.2) trivial rfl

end Step

/-! ## The invariant over runs -/

namespace Shared

variable {s : Shared V}

theorem Steps.tick (hs : s.Shape) (ht : s.Timeline) : Steps s s.tick := by
  obtain ⟨hs', g⟩ : s.tick.Shape ∧ Grows s s.tick := hs.of_same rfl rfl rfl rfl rfl rfl rfl
  exact ⟨hs', ht.tick, g, fun _ => ⟨rfl, rfl, rfl⟩⟩

/-- The clock is not in `Grows`. -/
theorem Grows.tick {s' : Shared V} (g : Grows s s') : Grows s s'.tick :=
  ⟨g.k_eq, g.chain_prefix, g.chain_eq, g.head_step, g.tail_step, g.next_eq, g.seg_eq, g.box_mono⟩

theorem Shape.invokeEnqueue (hs : s.Shape) (v : V) :
    (s.invokeEnqueue v).tick.Shape ∧ Grows s (s.invokeEnqueue v).tick := by
  obtain ⟨hs₁, g₁⟩ := hs.newBox (some v)
  obtain ⟨hs₂, g₂⟩ : (s.invokeEnqueue v).tick.Shape ∧ Grows (s.newBox (some v)) (s.invokeEnqueue v).tick :=
    hs₁.of_same rfl rfl rfl rfl rfl rfl rfl
  exact ⟨hs₂, ⟨g₁.k_eq, g₁.chain_prefix, g₁.chain_eq, g₁.head_step, g₁.tail_step, g₁.next_eq,
    g₁.seg_eq, fun p h => g₂.box_mono p (g₁.box_mono p h)⟩⟩

end Shared

/-- The invariant of the queue machine. -/
structure Inv (s : QState V) : Prop where
  shape : s.sh.Shape
  timeline : s.sh.Timeline
  ok : ∀ t, (s.threads t).Ok s.sh
  /-- No two running enqueue calls share an item. -/
  distinct : ∀ t u b, (s.threads t).item = some b → (s.threads u).item = some b → t = u

theorem QState.step_threadStep {s : QState V} {t : Nat} {c : Choice} {r : Shared V × Thread V}
    (hs : s.sh.Shape) (ht : s.sh.Timeline) (hok : (s.threads t).Ok s.sh) (h : s.step t c = some r) :
    ThreadStep s.sh r.1 (s.threads t).item r.2 := by
  unfold QState.step at h
  split at h
  · next b pc heq =>
    cases h
    rw [heq] at hok ⊢
    exact enqStep_step hs ht hok
  · next pc heq =>
    cases h
    rw [heq] at hok ⊢
    exact deqStep_step hs ht hok
  · cases h

theorem Thread.item_isItem {s : Shared V} {th : Thread V} (h : th.Ok s) {b : Nat}
    (hb : th.item = some b) : s.IsItem b := by
  cases th with
  | enqueue b' pc => cases hb; exact h.1
  | _ => cases hb

/-- The clock is in no thread's facts. -/
theorem Thread.Ok.tick {s : Shared V} {th : Thread V} (h : th.Ok s) : th.Ok s.tick := h

/-- A step that keeps every call's records keeps every thread's facts. -/
theorem Thread.Ok.steps {s s' : Shared V} {th : Thread V} (h : th.Ok s) (hs : s.Shape)
    (ht : s.Timeline) (hst : Steps s s') : th.Ok s' :=
  h.mono hs hst.grows (fun p _ (_ : some p ≠ none) => hst.keeps p) (fun _ h => by cases h)
    (fun _ _ h => by cases h) ht

/-- Putting thread `th` at `t` keeps what `f` reads off the threads (such as the running items)
    distinct when no other thread has `th`'s. -/
theorem distinct_store {f : Thread V → Option Nat} {threads : Nat → Thread V}
    (hd : ∀ t u b, f (threads t) = some b → f (threads u) = some b → t = u) {t : Nat}
    {th : Thread V} (hth : ∀ b, f th = some b → ∀ u, u ≠ t → f (threads u) ≠ some b) :
    ∀ u w b, f (store threads t th u) = some b → f (store threads t th w) = some b →
      u = w := by
  intro u w b hu hw
  by_cases hut : u = t <;> by_cases hwt : w = t
  · exact hut.trans hwt.symm
  · rw [hut, store_same] at hu
    rw [store_ne _ hwt] at hw
    exact absurd hw (hth b hu w hwt)
  · rw [store_ne _ hut] at hu
    rw [hwt, store_same] at hw
    exact absurd hu (hth b hw u hut)
  · rw [store_ne _ hut] at hu
    rw [store_ne _ hwt] at hw
    exact hd u w b hu hw

/-- Every action keeps the invariant, and the memory grows by it. -/
theorem Inv.exec {s s' : QState V} {a : Action V} (hi : Inv s) (h : s.exec a = some s') :
    Inv s' ∧ Grows s.sh s'.sh := by
  obtain ⟨hs, ht, hok, hd⟩ := hi
  cases a with
  | enqueue t v =>
    simp only [QState.exec] at h
    split_ifs at h
    cases h
    obtain ⟨hs', g⟩ := hs.invokeEnqueue v
    have hfresh : ¬ s.sh.IsBox s.sh.bound := fun h => Nat.lt_irrefl _ (hs.box_fresh _ h).2
    have hne : ∀ u b, (s.threads u).item = some b → b ≠ s.sh.bound := fun u b hb h =>
      hfresh (h ▸ ht.item_box b (Thread.item_isItem (hok u) hb))
    refine ⟨⟨hs', ht.invokeEnqueue hs v, fun u => ?_,
      distinct_store hd fun b hb u _ hu => hne u b hu (by cases hb; rfl)⟩, g⟩
    dsimp only
    by_cases hu : u = t
    · subst hu
      rw [store_same]
      have hnr : s.sh.hist.returnedAt s.sh.bound = none :=
        Option.not_isSome_iff_eq_none.mp fun hb => by
          obtain ⟨r, hr⟩ := Option.isSome_iff_exists.mp hb
          obtain ⟨i, hi, -⟩ := ht.returned_lt _ r hr
          exact hfresh (ht.item_box _ (by simp [IsItem, hi]))
      exact ⟨by simp [IsItem, Shared.tick, Shared.invokeEnqueue], hnr, trivial⟩
    · rw [store_ne _ hu]
      have hp' : ∀ p, s.sh.IsBox p → p ≠ s.sh.bound := fun p hp h => hfresh (h ▸ hp)
      exact (hok u).mono hs g (fun p hp (_ : some p ≠ none) =>
        ⟨store_ne _ (hp' p hp), store_ne _ (hp' p hp), rfl⟩) (fun _ h => by cases h)
        (fun _ _ h => by cases h) ht
  | dequeue t =>
    simp only [QState.exec] at h
    split_ifs at h
    cases h
    have hst := Steps.tick hs ht
    refine ⟨⟨hst.shape, hst.timeline, fun u => ?_, distinct_store hd fun _ h => by cases h⟩,
      hst.grows⟩
    dsimp only
    by_cases hu : u = t
    · rw [hu, store_same]; trivial
    · rw [store_ne _ hu]; exact (hok u).steps hs ht hst
  | step t c =>
    simp only [QState.exec] at h
    cases hr : s.step t c with
    | none => simp only [hr] at h; cases h
    | some r =>
      obtain ⟨sh, th⟩ := r
      simp only [hr, Option.some.injEq] at h
      subst h
      have ts := QState.step_threadStep hs ht (hok t) hr
      have hm : ∀ b, (s.threads t).item = some b → s.sh.IsItem b :=
        fun b hb => Thread.item_isItem (hok t) hb
      obtain ⟨hs', -⟩ : sh.tick.Shape ∧ Grows sh sh.tick :=
        ts.shape.of_same rfl rfl rfl rfl rfl rfl rfl
      refine ⟨⟨hs', ts.timeline, fun u => ?_,
        distinct_store hd fun b hb u hu hub => hu (hd _ _ _ hub (ts.item b hb).symm)⟩,
        ts.grows.tick⟩
      dsimp only
      by_cases hu : u = t
      · rw [hu, store_same]; exact ts.ok.tick
      · rw [store_ne _ hu]
        exact ((hok u).mono hs ts.grows ts.keeps hm
          (fun b hb hbt => hu (hd _ _ _ hb hbt.symm)) ht).tick

/-- `SegQueueOld::new(k)` satisfies the invariant. -/
theorem Inv.new (k : Nat) : Inv (SegQueueOld.new V k) := by
  have hF : (SegQueueOld.new V k).sh.segs (1 + k) = some ⟨List.range' 1 k, 0, false⟩ :=
    store_same ..
  have hseg : ∀ a sg, (SegQueueOld.new V k).sh.segs a = some sg →
      a = 1 + k ∧ sg = ⟨List.range' 1 k, 0, false⟩ := fun a sg h => by
    simp only [SegQueueOld.new, Shared.newSegment, Shared.empty, Shared.freshSeg, store_apply] at h
    split_ifs at h with ha
    cases h; exact ⟨ha, rfl⟩
  have hnext : ∀ a, (SegQueueOld.new V k).sh.nextOf a = 0 := fun a => by
    unfold nextOf
    cases h : (SegQueueOld.new V k).sh.segs a with
    | none => rfl
    | some sg => rw [(hseg a sg h).2]; rfl
  have hbox : ∀ p, (SegQueueOld.new V k).sh.IsBox p ↔ 1 ≤ p ∧ p < 1 + k := fun p => by
    simp only [IsBox, SegQueueOld.new, Shared.newSegment, Shared.empty, Shared.freshSeg]
    split_ifs with hp
    · exact iff_of_true rfl hp
    · exact iff_of_false Bool.false_ne_true hp
  have hchain : ∀ a ∈ (SegQueueOld.new V k).sh.hist.chain, a = 1 + k :=
    fun a ha => List.mem_singleton.mp ha
  have hitem : ∀ b, ¬ (SegQueueOld.new V k).sh.IsItem b := fun _ h => Bool.false_ne_true h
  refine ⟨⟨hnext _, List.mem_singleton_self _, List.mem_singleton_self _, le_rfl,
    fun a ha _ => ?_, fun a ha => ?_, fun a h => absurd (hnext a) h, fun a sg h => ?_,
    fun a h => ?_, fun p h => ?_⟩,
    ⟨fun _ _ h => (nomatch h), fun _ _ h => (nomatch h), fun b h => absurd h (hitem b),
      fun b h => absurd h (hitem b), fun _ h => (nomatch h), fun _ _ _ _ h => (nomatch h),
      fun _ _ _ b _ h => absurd h (hitem b)⟩, fun _ => trivial, fun _ _ _ h => (nomatch h)⟩
  · rw [hchain a ha, deletedOf, hF]; rfl
  · rw [hchain a ha, hF]; rfl
  · obtain ⟨-, rfl⟩ := hseg a sg h
    exact ⟨List.length_range' .., fun p hp => (hbox p).mpr (List.mem_range'_1.mp hp)⟩
  · obtain ⟨sg, hsg⟩ := Option.isSome_iff_exists.mp h
    have := (hseg a sg hsg).1
    show 0 < a ∧ a < 1 + k + 1
    omega
  · have := (hbox p).mp h
    show 0 < p ∧ p < 1 + k + 1
    omega

/-- Every reachable state satisfies the invariant. -/
theorem Reachable.inv {k : Nat} {s : QState V} (h : Reachable k s) : Inv s :=
  h.induction (Inv.new k) fun _ _ _ _ hi ha => (hi.exec ha).1

/-- The number of slots of a segment is the one `SegQueueOld::new` was given. -/
theorem Reachable.k_eq {k : Nat} {s : QState V} (h : Reachable k s) : s.sh.k = k :=
  @Reachable.induction V k (fun s => s.sh.k = k) rfl
    (fun _ _ _ hr hk ha => (hr.inv.exec ha).2.k_eq.trans hk) s h

end Rustcurrent.SegQueue
