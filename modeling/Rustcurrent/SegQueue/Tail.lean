import Rustcurrent.SegQueue.Pending
import Rustcurrent.SegQueue.Conservation

/-!
# `tail` lags at most one segment

In every reachable state `tail` is the last segment of the list, or the one before it: the
`next` of `tail.next` is null (`tail_lag`).

Only three accesses move `tail` or a `next` (`enqStep_links`, `deqStep_links`): the link of a new
segment behind `old` while `old.next` is null (line 262), and the exchanges of `tail` to a
non-null `next` (lines 263, 268 and 291). `advance_tail` reaches the link only after finding `old`
in `tail` (line 258), and while `old.next` stays null nothing moves `tail` away from `old`
(`Thread.Linking`). So every link is made behind `tail` itself, and the segment linked is the last.
-/

namespace Rustcurrent.SegQueue

variable {V : Type}

namespace Shared

variable {s s' : Shared V}

/-- `tail` is the last segment, or the one before it. -/
def TailLag (s : Shared V) : Prop := s.nextOf (s.nextOf s.tail) = 0

/-- `tail` and every `next` read as before. -/
structure SameLinks (s s' : Shared V) : Prop where
  tail : s'.tail = s.tail
  next : ∀ a, s'.nextOf a = s.nextOf a

theorem SameLinks.refl (s : Shared V) : SameLinks s s := ⟨rfl, fun _ => rfl⟩

/-- `Segment::new` writes a `next` that is null, at an address whose `next` read null. -/
theorem sameLinks_newSegment (hF : s.segs s.freshSeg = none) : SameLinks s s.newSegment := by
  refine ⟨rfl, fun a => ?_⟩
  by_cases ha : a = s.freshSeg
  · subst ha
    simp [nextOf, newSegment, hF]
  · exact nextOf_newSegment_ne s ha

theorem Shape.nextOf_zero (hs : s.Shape) : s.nextOf 0 = 0 := by
  have : s.segs 0 = none := Option.not_isSome_iff_eq_none.mp fun h => Nat.lt_irrefl 0 (hs.seg_fresh 0 h).1
  simp [nextOf, this]

theorem Shape.segs_freshSeg (hs : s.Shape) : s.segs s.freshSeg = none :=
  Option.not_isSome_iff_eq_none.mp fun h => by have := (hs.seg_fresh _ h).2; unfold freshSeg at this; omega

/-! ## What a step does to the links -/

/-- `advance_tail` keeps `tail` and the links, or links `n` behind `old` while `old.next` is null
    (line 262), or exchanges `tail` from `old` (lines 263 and 268). -/
theorem advanceTail_links (hF : s.segs s.freshSeg = none) (pc : TailPc) :
    SameLinks s (s.advanceTail pc).1 ∨
      (∃ old n, pc = .link old n ∧ s.nextOf old = 0 ∧ (s.advanceTail pc).1 = s.linkNext old n) ∨
      ∃ old n, (pc = .swingNew old n ∨ pc = .swing old n) ∧ (s.advanceTail pc).1 = s.casTail old n := by
  cases pc with
  | loadTail | loadNext => exact .inl (.refl s)
  | recheck old next =>
    simp only [advanceTail]
    split_ifs
    · exact .inl (sameLinks_newSegment hF)
    all_goals exact .inl (.refl s)
  | link old n =>
    simp only [advanceTail]
    split_ifs with hz
    · exact .inr (.inl ⟨old, n, rfl, hz, rfl⟩)
    · exact .inl (.refl s)
  | swingNew old n => exact .inr (.inr ⟨old, n, .inl rfl, rfl⟩)
  | swing old n => exact .inr (.inr ⟨old, n, .inr rfl, rfl⟩)

/-- `enqueue` moves `tail` and the links only inside `advance_tail`. -/
theorem enqStep_links {b : Nat} {c : Choice} (pc : EnqPc) :
    SameLinks s (s.enqStep b c pc).1 ∨
      ∃ tp, pc = .advanceTail tp ∧ (s.enqStep b c pc).1 = (s.advanceTail tp).1 := by
  cases pc with
  | advanceTail tp =>
    refine .inr ⟨tp, rfl, ?_⟩
    simp only [enqStep]
    split <;> next heq => rw [heq]
  | _ => simp only [enqStep]; (repeat' split) <;> exact .inl ⟨rfl, fun _ => by simp⟩

/-- `dequeue` moves `tail` and the links only inside `advance_tail`, and when `advance_head`
    swings `tail` (line 291). -/
theorem deqStep_links {c : Choice} (pc : DeqPc) :
    SameLinks s (s.deqStep c pc).1 ∨
      (∃ h i p tp, pc = .advanceTail h i p tp ∧ (s.deqStep c pc).1 = (s.advanceTail tp).1) ∨
      ∃ h hn tl tn, pc = .headSwingTail h hn tl tn ∧ (s.deqStep c pc).1 = s.casTail tl tn := by
  cases pc with
  | advanceTail h i p tp =>
    refine .inr (.inl ⟨h, i, p, tp, rfl, ?_⟩)
    simp only [deqStep]
    split <;> next heq => rw [heq]
  | headSwingTail h hn tl tn => exact .inr (.inr ⟨h, hn, tl, tn, rfl, rfl⟩)
  | _ => simp only [deqStep]; (repeat' split) <;> exact .inl ⟨rfl, fun _ => by first | rfl | simp⟩

/-! ## The lag after each kind of step -/

theorem TailLag.of_same (h : s.TailLag) (hl : SameLinks s s') : s'.TailLag := by
  unfold TailLag
  rw [hl.tail, hl.next, hl.next]
  exact h

/-- Swinging `tail` to its `next`: the new `tail` is the last segment. -/
theorem TailLag.casTail (hs : s.Shape) (h : s.TailLag) {old x : Nat} (hx : s.tail = old → s.nextOf old = x) :
    (s.casTail old x).TailLag := by
  unfold Shared.casTail
  split_ifs with ht
  · show s.nextOf (s.nextOf x) = 0
    rw [← hx ht, ← ht, show s.nextOf (s.nextOf s.tail) = 0 from h, hs.nextOf_zero]
  · exact h

/-- Linking the fresh segment `n` behind `tail`: `n` is the last segment. -/
theorem TailLag.linkNext (hs : s.Shape) {old n : Nat} (ho : old ∈ s.hist.chain) (ht : s.tail = old)
    (hn : s.Fresh n) : (s.linkNext old n).TailLag := by
  obtain ⟨hlt, d, hd⟩ := hn
  show (s.linkNext old n).nextOf ((s.linkNext old n).nextOf s.tail) = 0
  rw [ht, nextOf_linkNext_self s n (hs.chain_seg old ho), nextOf_linkNext_ne s n (Nat.ne_of_gt (hlt old ho))]
  simp [nextOf, hd]

end Shared

open Shared

/-! ## What a thread about to link knows -/

/-- What a thread about to link behind `old` (line 262) knows: while `old.next` is null, `old` is
    still `tail`. -/
def TailPc.Linking (s : Shared V) : TailPc → Prop
  | .link old _ => s.nextOf old = 0 → s.tail = old
  | _ => True

/-- What a thread knows of the link it may be about to make. -/
def Thread.Linking (s : Shared V) : Thread V → Prop
  | .enqueue _ (.advanceTail pc) | .dequeue (.advanceTail _ _ _ pc) => pc.Linking s
  | _ => True

section Linking

variable {s s' : Shared V}

/-- Any step keeps the fact: `tail` leaves `old` only for a non-null `old.next`, and a non-null
    `next` stays. -/
theorem TailPc.Linking.mono (g : Grows s s') {pc : TailPc} (h : pc.Linking s) : pc.Linking s' := by
  cases pc with
  | link old n =>
    intro hz
    have hz0 : s.nextOf old = 0 := by
      by_contra hne
      exact hne ((g.next_eq old hne).symm.trans hz)
    rcases g.tail_step with ht | ⟨hne, -⟩
    · exact ht.trans (h hz0)
    · exact absurd (by rw [h hz0]; exact hz0) hne
  | _ => trivial

theorem Thread.Linking.mono (g : Grows s s') {th : Thread V} (h : th.Linking s) : th.Linking s' := by
  cases th with
  | enqueue b pc => cases pc <;> first | exact TailPc.Linking.mono g h | trivial
  | dequeue pc => cases pc <;> first | exact TailPc.Linking.mono g h | trivial
  | _ => trivial

/-- `advance_tail` reaches the link only from its second load of `tail` (line 258), which found
    `old` there. -/
theorem TailPc.linking_advanceTail (pc : TailPc) {pc' : TailPc} (h : (s.advanceTail pc).2 = some pc') :
    pc'.Linking (s.advanceTail pc).1 := by
  cases pc with
  | recheck old next =>
    simp only [advanceTail] at h ⊢
    split_ifs at h ⊢ with ho
    · cases h
      exact fun _ => ho.symm
    all_goals cases h; trivial
  | loadTail old => simp only [advanceTail] at h; split_ifs at h; cases h; trivial
  | link old n => simp only [advanceTail] at h; split_ifs at h; cases h; trivial
  | loadNext old => cases h; trivial
  | swingNew | swing => cases h

theorem EnqPc.linking_scanNext (b tl : Nat) (l : List Nat) :
    (Thread.enqueue b (EnqPc.scanNext tl l) : Thread V).Linking s := by
  cases l <;> trivial

theorem DeqPc.linking_scanNext (h : Nat) (l : List Nat) :
    (Thread.dequeue (DeqPc.scanNext h l) : Thread V).Linking s := by
  cases l <;> trivial

theorem enqStep_linking {b : Nat} {c : Choice} (pc : EnqPc) :
    (s.enqStep b c pc).2.Linking (s.enqStep b c pc).1 := by
  cases pc with
  | advanceTail tp =>
    simp only [enqStep]
    split
    · next heq => simpa [heq] using TailPc.linking_advanceTail (s := s) tp (congrArg Prod.snd heq)
    · trivial
  | _ => simp only [enqStep]; (repeat' split) <;> first | trivial | exact EnqPc.linking_scanNext _ _ _

theorem deqStep_linking {c : Choice} (pc : DeqPc) : (s.deqStep c pc).2.Linking (s.deqStep c pc).1 := by
  cases pc with
  | advanceTail h i p tp =>
    simp only [deqStep]
    split
    · next heq => simpa [heq] using TailPc.linking_advanceTail (s := s) tp (congrArg Prod.snd heq)
    · trivial
  | _ => simp only [deqStep]; (repeat' split) <;> first | trivial | exact DeqPc.linking_scanNext _ _

end Linking

/-! ## The invariant over runs -/

/-- `tail` lags at most one segment, and each thread about to link knows where `tail` is. -/
structure LagInv (s : QState V) : Prop where
  lag : s.sh.TailLag
  linking : ∀ t, (s.threads t).Linking s.sh

/-- `advance_tail`, by a thread that knows what `Ok` and `Linking` say of it. -/
theorem Shared.TailLag.advanceTail {s : Shared V} (hs : s.Shape) (h : s.TailLag) {tp : TailPc}
    (hok : TailPc.Ok s tp) (hlk : tp.Linking s) : (s.advanceTail tp).1.TailLag := by
  rcases advanceTail_links hs.segs_freshSeg tp with hsame | ⟨old, n, rfl, hz, he⟩ | ⟨old, n, hpc, he⟩
  · exact h.of_same hsame
  · rw [he]
    exact TailLag.linkNext hs hok.1 (hlk hz) (hok.2 hz)
  · rw [he]
    rcases hpc with rfl | rfl <;> exact h.casTail hs fun _ => hok.2.2

theorem QState.step_lag {s : QState V} {t : Nat} {c : Choice} {r : Shared V × Thread V} (hi : Inv s)
    (hl : LagInv s) (h : s.step t c = some r) : r.1.TailLag := by
  have hok := hi.ok t
  have hlk := hl.linking t
  unfold QState.step at h
  split at h <;> cases h
  · next b pc heq =>
    rw [heq] at hok hlk
    rcases enqStep_links pc with hsame | ⟨tp, rfl, he⟩
    · exact hl.lag.of_same hsame
    · rw [he]
      exact hl.lag.advanceTail hi.shape hok.2.2 hlk
  · next pc heq =>
    rw [heq] at hok hlk
    rcases deqStep_links pc with hsame | ⟨h, i, p, tp, rfl, he⟩ | ⟨h, hn, tl, tn, rfl, he⟩
    · exact hl.lag.of_same hsame
    · rw [he]
      exact hl.lag.advanceTail hi.shape hok.2.2 hlk
    · rw [he]
      obtain ⟨-, htl, -, hnext, -⟩ := hok
      exact hl.lag.casTail hi.shape fun _ => htl ▸ hnext

/-- Across a step, a thread stored with what it knows of its link keeps every thread's fact. -/
theorem LagInv.linking_store {s : QState V} {sh : Shared V} (hl : LagInv s) (g : Grows s.sh sh)
    {t : Nat} {th : Thread V} (hth : th.Linking sh) (u : Nat) : (store s.threads t th u).Linking sh := by
  by_cases hu : u = t
  · subst hu; rw [store_same]; exact hth
  · rw [store_ne _ hu]; exact (hl.linking u).mono g

theorem LagInv.exec {s s' : QState V} {a : Action V} (hi : Inv s) (hl : LagInv s)
    (h : s.exec a = some s') : LagInv s' := by
  have g := (hi.exec h).2
  cases a with
  | enqueue t v | dequeue t =>
    simp only [QState.exec] at h
    split_ifs at h
    cases h
    exact ⟨hl.lag.of_same ⟨rfl, fun _ => rfl⟩, hl.linking_store g trivial⟩
  | step t c =>
    simp only [QState.exec] at h
    cases hr : s.step t c with
    | none => simp only [hr] at h; cases h
    | some r =>
      simp only [hr, Option.some.injEq] at h
      subst h
      refine ⟨QState.step_lag hi hl hr, hl.linking_store g (Thread.Linking.mono (Grows.tick (Grows.refl _)) ?_)⟩
      unfold QState.step at hr
      split at hr <;> cases hr
      · exact enqStep_linking _
      · exact deqStep_linking _

theorem LagInv.new (k : Nat) : LagInv (SegQueueOld.new V k) := by
  refine ⟨?_, fun _ => trivial⟩
  simp only [TailLag, SegQueueOld.new, nextOf, newSegment, Shared.empty, freshSeg, store]
  simp [if_neg (show 0 ≠ 1 + k by omega)]

/-- In every reachable state `tail` is the last segment of the list or the one before it: the
    `next` of `tail.next` is null. -/
theorem tail_lag {k : Nat} {s : QState V} (hr : Reachable k s) : s.sh.nextOf (s.sh.nextOf s.sh.tail) = 0 :=
  (hr.induction (LagInv.new k) fun _ _ _ hr' hl ha => hl.exec hr'.inv ha).lag

/-- After 28 actions of `strandTrace` thread 2 has linked a second segment behind `tail` and not yet
    moved `tail` to it: `tail` lags one segment, and the segment after it is the last. -/
theorem tail_lag_strand :
    ∃ s : QState Nat, Reachable 2 s ∧ s.sh.nextOf s.sh.tail ≠ 0 ∧
      s.sh.nextOf (s.sh.nextOf s.sh.tail) = 0 := by
  obtain ⟨s, hs, hp⟩ :=
    @Reachable.of_run Nat 2 (strandTrace.take 28) (fun s => s.sh.nextOf s.sh.tail != 0) (by decide)
  exact ⟨s, hs, bne_iff_ne.mp hp, tail_lag hs⟩

end Rustcurrent.SegQueue
