import Rustcurrent.SegQueue.Invariant

/-!
# k-relaxed order

When `try_dequeue`'s exchange (line 195) takes the item `v` out of slot `i` of the segment `h` it
loaded from `head`, the segments reachable from `head` hold at most `k - 1` items whose enqueue
call returned before `v`'s was invoked (`relaxed_order`).

The argument runs through the history of `Timeline`. Such an item `u` sits in a segment `a`
reachable from `head`, so `head ≤ a`; `u` was stored there before its call returned, so `a` is no
further than the tail at that return, which by `order` is no further than the tail at `v`'s
invocation, which is no further than `h`, the segment holding `v`; and `h ≤ head`. So `a = h`, and
all such items share the `k` slots of `h` with `v`.
-/

namespace Rustcurrent.SegQueue

namespace Shared

variable {V : Type} (s : Shared V)

/-- The boxes in the slots of the segment at `a`. -/
def segData (a : Nat) : List Nat := ((s.segs a).map Segment.data).getD []

/-- The boxes in the slots of the segments reachable from `head`. -/
def held : List Nat := s.reach.flatMap s.segData

/-- The enqueue call of `u` returned before the enqueue call of `v` was invoked. -/
def returnedBefore (u v : Nat) : Bool :=
  match s.hist.returnedAt u, s.hist.invokedAt v with
  | some r, some i => decide (r < i)
  | _, _ => false

variable {s}

theorem returnedBefore_iff {u v : Nat} : s.returnedBefore u v = true ↔
    ∃ r i, s.hist.returnedAt u = some r ∧ s.hist.invokedAt v = some i ∧ r < i := by
  unfold returnedBefore
  cases s.hist.returnedAt u <;> cases s.hist.invokedAt v <;> simp

theorem segData_of_segs {a : Nat} {sg : Segment} (h : s.segs a = some sg) : s.segData a = sg.data := by
  simp [segData, h]

/-- A call does not return before it is invoked. -/
theorem Timeline.not_returnedBefore_self (ht : s.Timeline) (v : Nat) : s.returnedBefore v v = false := by
  refine Bool.eq_false_iff.mpr fun h => ?_
  obtain ⟨r, i, hr, hi, hlt⟩ := returnedBefore_iff.mp h
  obtain ⟨i', hi', hlt', -⟩ := ht.returned_lt v r hr
  rw [hi] at hi'
  cases hi'
  omega

/-- An item that returned before `v` was invoked sits in a segment no further than the tail at
    `v`'s invocation. -/
theorem Timeline.le_invTail (ht : s.Timeline) {a u v : Nat} (hu : u ∈ s.segData a)
    (hb : s.returnedBefore u v = true) : a ≤ s.hist.invTail v := by
  obtain ⟨r, i, hr, hi, hlt⟩ := returnedBefore_iff.mp hb
  obtain ⟨i', hi', -⟩ := ht.returned_lt u r hr
  cases hsg : s.segs a with
  | none => simp [segData, hsg] at hu
  | some sg =>
    rw [segData_of_segs hsg] at hu
    have hplace := ht.placed a sg hsg u hu (by simp [IsItem, hi'])
    exact (hplace.2.2 (by simp [hr])).trans (ht.order u v r i hr hi hlt)

end Shared

/-- Of a list of distinct segments of which only `h` holds anything, only `h` counts. -/
theorem length_flatMap_le_of_single {β : Type} {l : List Nat} (hl : l.Nodup) (g : Nat → List β)
    {h : Nat} (hg : ∀ a ∈ l, a ≠ h → g a = []) : (l.flatMap g).length ≤ (g h).length := by
  induction l with
  | nil => simp
  | cons a l ih =>
    obtain ⟨ha, hl⟩ := List.nodup_cons.mp hl
    rw [List.flatMap_cons, List.length_append]
    by_cases hah : a = h
    · subst hah
      rw [List.flatMap_eq_nil_iff.mpr fun b hb => hg b (List.mem_cons_of_mem _ hb)
        fun hba => ha (hba ▸ hb)]
      simp
    · rw [hg a (List.mem_cons_self _ _) hah, List.length_nil, Nat.zero_add]
      exact ih hl fun b hb => hg b (List.mem_cons_of_mem _ hb)

namespace Shared

variable {V : Type} {s : Shared V}

/-- The count behind `relaxed_order`: when the box `p` sits in slot `i` of a segment `h` loaded
    from `head`, the segments reachable from `head` hold at most `k - 1` items whose enqueue call
    returned before `p`'s was invoked. -/
theorem Shape.held_returnedBefore_le (hs : s.Shape) (htl : s.Timeline) {h i p : Nat}
    (hh : s.Below h) (hp : s.slot h i = p) (hbox : s.IsBox p) :
    (s.held.filter fun u => s.returnedBefore u p).length ≤ s.k - 1 := by
  obtain ⟨sg, hsg, hi⟩ : ∃ sg, s.segs h = some sg ∧ sg.data[i]? = some p := by
    have hp0 := (hs.box_fresh p hbox).1
    unfold slot at hp
    cases hsg : s.segs h with
    | none => simp [hsg] at hp; omega
    | some sg =>
      cases hi : sg.data[i]? with
      | none => simp [hsg, hi] at hp; omega
      | some q => simp [hsg, hi] at hp; exact ⟨sg, rfl, hp ▸ hi⟩
  obtain ⟨hlt, hpi⟩ := List.getElem?_eq_some_iff.mp hi
  have hpmem : p ∈ sg.data := hpi ▸ List.getElem_mem hlt
  -- every counted item sits in `h`
  have hone : ∀ a ∈ s.reach, a ≠ h →
      (s.segData a).filter (fun u => s.returnedBefore u p) = [] := by
    intro a ha hah
    refine List.filter_eq_nil_iff.mpr fun u hu hb => hah ?_
    obtain ⟨r, i', -, hi', -⟩ := returnedBefore_iff.mp hb
    have hpv : s.hist.invTail p ≤ h :=
      (htl.placed h sg hsg p hpmem (by simp [IsItem, hi'])).1
    have hah' := (hs.mem_reach.mp ha).2
    have := htl.le_invTail hu hb
    have := hh.2
    omega
  calc (s.held.filter fun u => s.returnedBefore u p).length
      = (s.reach.flatMap fun a => (s.segData a).filter fun u => s.returnedBefore u p).length := by
        rw [held, List.filter_flatMap]
    _ ≤ ((s.segData h).filter fun u => s.returnedBefore u p).length :=
        length_flatMap_le_of_single (hs.reach_eq ▸ hs.linked.nodup.filter _) _ hone
    _ ≤ sg.data.length - 1 := by
        rw [segData_of_segs hsg]
        have := (@List.length_filter_lt_length_iff_exists _ (fun u => s.returnedBefore u p)
          sg.data).mpr ⟨p, hpmem, by simp [htl.not_returnedBefore_self p]⟩
        omega
    _ = s.k - 1 := by rw [(hs.slots h sg hsg).1]

end Shared

open Shared

variable {V : Type}

/-- When a dequeue's exchange on slot `i` of segment `h` succeeds and takes `p`, the segments
    reachable from `head` hold at most `k - 1` items whose enqueue call returned before `p`'s was
    invoked. -/
theorem relaxed_order {k t h i p : Nat} {s : QState V} (hr : Reachable k s)
    (ht : s.threads t = .dequeue (.cas h i p)) (hp : s.sh.slot h i = p) :
    (s.sh.held.filter fun u => s.sh.returnedBefore u p).length ≤ k - 1 := by
  obtain ⟨hs, htl, hok, -⟩ := hr.inv
  have hc := hok t
  rw [ht] at hc
  rw [← hr.k_eq]
  exact hs.held_returnedBefore_le htl hc.1 hp hc.2

/-- Two enqueues return in turn; a dequeue, whose shuffle puts slot 1 first, then reaches its
    exchange on the second item while the first is still in slot 0. -/
def orderTrace : List (Action Nat) :=
  [.enqueue 0 3] ++ List.replicate 10 (.step 0 ⟨[0, 1], false⟩) ++
  [.enqueue 0 4] ++ List.replicate 12 (.step 0 ⟨[0, 1], false⟩) ++
  [.dequeue 1] ++ List.replicate 11 (.step 1 ⟨[1, 0], false⟩)

/-- The state `orderTrace` reaches. -/
def orderState : QState Nat := ((SegQueueOld.new Nat 2).run orderTrace).getD (SegQueueOld.new Nat 2)

theorem relaxed_order_orderState :
    Reachable 2 orderState ∧ orderState.threads 1 = .dequeue (.cas 3 1 6) ∧
      orderState.sh.slot 3 1 = 6 ∧
      (orderState.sh.held.filter fun u => orderState.sh.returnedBefore u 6).length ≤ 2 - 1 :=
  have hr : Reachable 2 orderState := Reachable.of_isSome (by decide)
  ⟨hr, by decide, by decide, @relaxed_order Nat 2 1 3 1 6 orderState hr (by decide) (by decide)⟩

/-- The bound is met: the first item is held and returned before the second was invoked. -/
example : (orderState.sh.held.filter fun u => orderState.sh.returnedBefore u 6) = [4] := by
  decide

end Rustcurrent.SegQueue
