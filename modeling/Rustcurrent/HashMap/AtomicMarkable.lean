import Mathlib.Data.Nat.Bitwise
import Mathlib.Data.BitVec

/-!
# Tagged pointer words and trie nodes

`hash_map/atomic_markable.rs`. A cell of the hash trie is a machine word holding a node pointer
whose bit 0 is the *mark* flag and whose bit 1 is the *array-node* flag; the six helpers are the
source's bit functions on 64-bit words. A `Node` is the enum the cells point to: a data leaf with
its 64-bit hash and an optional value, or an `ArrayNode` whose `array` is a vector of cells.

The characterisation lemmas turn each flag test into arithmetic on `toNat`, so that the trie's
invariant proofs close tag goals with `omega`.
-/

namespace Rustcurrent.HashMap

/-- A `usize` word: the content of an `AtomicMarkablePtr`, and a node address. -/
abbrev Word := BitVec 64

/-- `is_marked`. -/
def isMarked (ptr : Word) : Bool := ptr &&& 1 != 0

/-- `is_array_node`. -/
def isArrayNode (ptr : Word) : Bool := (ptr &&& 2) >>> 1 != 0

/-- `unmark`. -/
def unmark (ptr : Word) : Word := ptr &&& ~~~1

/-- `unmark_array_node`. -/
def unmarkArrayNode (ptr : Word) : Word := ptr &&& ~~~2

/-- `mark_array_node`. -/
def markArrayNode (ptr : Word) : Word := ptr ||| 2

/-- `mark`. -/
def mark (ptr : Word) : Word := ptr ||| 1

/-- A word whose two tag bits are clear: the null word, and every node address, since node
    allocations are at least 4-byte aligned. -/
def Untagged (w : Word) : Prop := w.toNat % 4 = 0

instance : DecidablePred Untagged := fun w => inferInstanceAs (Decidable (w.toNat % 4 = 0))

theorem isMarked_iff (w : Word) : isMarked w = true ↔ w.toNat % 2 = 1 := by
  simp only [isMarked, bne_iff_ne, ne_eq, BitVec.toNat_eq, BitVec.toNat_and, BitVec.toNat_ofNat]
  simp [Nat.and_one_is_mod]

private theorem two_lt_two_pow_add_two (i : Nat) : 2 < 2 ^ (i + 2) :=
  calc 2 < 2 ^ 2 := by decide
    _ ≤ 2 ^ (i + 2) := Nat.pow_le_pow_right (by decide) (by omega)

/-- Masking with `2` keeps bit 1 and nothing else. -/
theorem land_two (n : Nat) : n &&& 2 = 2 * (n / 2 % 2) := by
  apply Nat.eq_of_testBit_eq
  intro i
  rw [Nat.testBit_and]
  rcases i with _ | _ | i
  · simp [Nat.testBit_to_div_mod]
  · simp [Nat.testBit_to_div_mod]
  · have h2 : (2 : Nat).testBit (i + 2) = false :=
      Nat.testBit_eq_false_of_lt (two_lt_two_pow_add_two i)
    have hr : (2 * (n / 2 % 2)).testBit (i + 2) = false :=
      Nat.testBit_eq_false_of_lt (by have := two_lt_two_pow_add_two i; omega)
    simp [h2, hr]

theorem isArrayNode_iff (w : Word) : isArrayNode w = true ↔ w.toNat / 2 % 2 = 1 := by
  simp only [isArrayNode, bne_iff_ne, ne_eq, BitVec.toNat_eq, BitVec.toNat_and,
    BitVec.toNat_ofNat, BitVec.toNat_ushiftRight]
  simp [land_two, Nat.shiftRight_eq_div_pow]

theorem Untagged.isMarked_eq_false {w : Word} (h : Untagged w) : isMarked w = false := by
  rw [Bool.eq_false_iff, ne_eq, isMarked_iff]
  unfold Untagged at h
  omega

theorem Untagged.isArrayNode_eq_false {w : Word} (h : Untagged w) : isArrayNode w = false := by
  rw [Bool.eq_false_iff, ne_eq, isArrayNode_iff]
  unfold Untagged at h
  omega

theorem untagged_zero : Untagged 0 := rfl

theorem Untagged.getLsbD {w : Word} (h : Untagged w) : w.getLsbD 0 = false ∧ w.getLsbD 1 = false := by
  simp only [BitVec.getLsbD, Nat.testBit_to_div_mod]
  unfold Untagged at h
  constructor <;> simp <;> omega

theorem Untagged.unmarkArrayNode_eq {w : Word} (h : Untagged w) : unmarkArrayNode w = w := by
  apply BitVec.eq_of_getLsbD_eq
  rintro ⟨i, hi⟩
  simp only [unmarkArrayNode, BitVec.getLsbD_and, BitVec.getLsbD_not]
  rcases i with _ | _ | i
  · simp
  · simp [h.getLsbD.2]
  · have : (2 : Nat).testBit (i + 2) = false :=
      Nat.testBit_eq_false_of_lt (two_lt_two_pow_add_two i)
    simp [BitVec.getLsbD_ofNat, hi, this]

theorem Untagged.unmark_eq {w : Word} (h : Untagged w) : unmark w = w := by
  apply BitVec.eq_of_getLsbD_eq
  rintro ⟨i, hi⟩
  simp only [unmark, BitVec.getLsbD_and, BitVec.getLsbD_not]
  rcases i with _ | i
  · simp [h.getLsbD.1]
  · have : (1 : Nat).testBit (i + 1) = false :=
      Nat.testBit_eq_false_of_lt (Nat.one_lt_two_pow (by omega))
    simp [BitVec.getLsbD_ofNat, hi, this]

/-! ## The helpers bit by bit -/

@[simp] theorem getLsbD_mark (p : Word) (i : Nat) : (mark p).getLsbD i = (decide (i = 0) || p.getLsbD i) := by
  simp only [mark, BitVec.getLsbD_or]
  rcases i with _ | i
  · simp
  · simp [BitVec.getLsbD_ofNat, Nat.testBit_succ]

@[simp] theorem getLsbD_markArrayNode (p : Word) (i : Nat) :
    (markArrayNode p).getLsbD i = (decide (i = 1) || p.getLsbD i) := by
  simp only [markArrayNode, BitVec.getLsbD_or]
  rcases i with _ | _ | i
  · simp
  · simp
  · simp [BitVec.getLsbD_ofNat, Nat.testBit_succ]

@[simp] theorem getLsbD_unmark (p : Word) (i : Nat) : (unmark p).getLsbD i = (!decide (i = 0) && p.getLsbD i) := by
  simp only [unmark, BitVec.getLsbD_and, BitVec.getLsbD_not]
  rcases i with _ | i
  · simp
  · by_cases hi : i + 1 < 64
    · simp [BitVec.getLsbD_ofNat, Nat.testBit_succ, hi]
    · simp [BitVec.getLsbD_ge p (i + 1) (by omega)]

@[simp] theorem getLsbD_unmarkArrayNode (p : Word) (i : Nat) :
    (unmarkArrayNode p).getLsbD i = (!decide (i = 1) && p.getLsbD i) := by
  simp only [unmarkArrayNode, BitVec.getLsbD_and, BitVec.getLsbD_not]
  rcases i with _ | _ | i
  · simp
  · simp
  · by_cases hi : i + 2 < 64
    · simp [BitVec.getLsbD_ofNat, Nat.testBit_succ, hi]
    · simp [BitVec.getLsbD_ge p (i + 2) (by omega)]

/-- `is_marked` reads bit 0. -/
theorem isMarked_eq (w : Word) : isMarked w = w.getLsbD 0 := by
  rw [Bool.eq_iff_iff, isMarked_iff, BitVec.getLsbD, Nat.testBit_zero]
  simp

/-- `is_array_node` reads bit 1. -/
theorem isArrayNode_eq (w : Word) : isArrayNode w = w.getLsbD 1 := by
  rw [Bool.eq_iff_iff, isArrayNode_iff, BitVec.getLsbD, Nat.testBit_succ, Nat.testBit_zero]
  simp

/-- `p` with the mark flag set when `m` holds and the array-node flag set when `a` holds. -/
def withTags (m a : Bool) (p : Word) : Word :=
  (if a then markArrayNode else id) ((if m then mark else id) p)

theorem getLsbD_withTags (m a : Bool) (p : Word) (i : Nat) :
    (withTags m a p).getLsbD i = (decide (i = 1) && a || decide (i = 0) && m || p.getLsbD i) := by
  cases m <;> cases a <;> simp [withTags, Bool.or_assoc]

/-- The tag laws: on an untagged word the two flags are set independently and read back, and
    clearing both gives the word back; `mark` and `mark_array_node` commute and are idempotent,
    and each `unmark` helper clears its own bit and keeps every other. -/
theorem tag_encoding_laws (p : Word) (hp : Untagged p) (m a : Bool) :
    isMarked (withTags m a p) = m ∧ isArrayNode (withTags m a p) = a ∧
      unmark (unmarkArrayNode (withTags m a p)) = p ∧
    ∀ w : Word, mark (markArrayNode w) = markArrayNode (mark w) ∧ mark (mark w) = mark w ∧
      markArrayNode (markArrayNode w) = markArrayNode w ∧
      (unmark w).getLsbD 0 = false ∧ (∀ i, i ≠ 0 → (unmark w).getLsbD i = w.getLsbD i) ∧
      (unmarkArrayNode w).getLsbD 1 = false ∧
      (∀ i, i ≠ 1 → (unmarkArrayNode w).getLsbD i = w.getLsbD i) := by
  obtain ⟨h0, h1⟩ := hp.getLsbD
  refine ⟨by simp [isMarked_eq, getLsbD_withTags, h0], by simp [isArrayNode_eq, getLsbD_withTags, h1], ?_,
    fun w => ⟨?_, ?_, ?_, by simp, fun i hi => by simp [hi], by simp, fun i hi => by simp [hi]⟩⟩
  · apply BitVec.eq_of_getLsbD_eq
    rintro ⟨i, -⟩
    rcases i with _ | _ | i <;> simp [getLsbD_withTags, h0, h1]
  all_goals
    apply BitVec.eq_of_getLsbD_eq
    rintro ⟨i, -⟩
    simp only [getLsbD_mark, getLsbD_markArrayNode]
    cases w.getLsbD i <;> simp [Bool.or_comm]

theorem tag_encoding_laws_eight :
    Untagged 8 ∧ isMarked (withTags true false 8) = true ∧ isArrayNode (withTags true false 8) = false ∧
      unmark (unmarkArrayNode (withTags true false 8)) = 8 :=
  ⟨by decide, (tag_encoding_laws 8 (by decide) true false).1,
    (tag_encoding_laws 8 (by decide) true false).2.1, (tag_encoding_laws 8 (by decide) true false).2.2.1⟩

/-- `DataNode`: a leaf holding the key's finished 64-bit hash and the value. Its `PhantomData`
    marker carries no data. -/
structure DataNode (V : Type) where
  /-- The 64-bit hash of the key (the source calls it `key`). -/
  key : BitVec 64
  /-- The value; `None` only for `DataNode::default()`. -/
  value : Option V
  deriving DecidableEq, Repr

/-- `DataNode::default()`, written over a leaf whose value `try_insert` takes back. -/
def DataNode.default {V : Type} : DataNode V := ⟨0, none⟩

/-- `Node`: what a trie cell points to. An `ArrayNode` is given by its `array` of cells; its
    `size` field is written once and never read by `insert`. -/
inductive Node (V : Type) where
  /-- `Node::Data`. -/
  | data (d : DataNode V)
  /-- `Node::Array`, with the words of its cells. -/
  | array (cells : List Word)
  deriving DecidableEq, Repr

end Rustcurrent.HashMap
