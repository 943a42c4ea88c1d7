import Mathlib.Algebra.GroupWithZero.Nat
import Mathlib.Data.Fintype.Card

/-!
# Slots and bitmaps

A table of slots is a function into `Option`; `used` counts the slots in use, and
the lemmas say how storing and clearing one slot moves that number. A bitmap over
`w` slots is a `BitVec w`; bits are set, cleared and searched from the lowest on.

The last section is about numbers written in base `b`: the digit at a place, and
when two numbers agree on their lower places.
-/

namespace Mach.Lib.Slots

open Function List Finset

section

variable {ι β : Type} [Fintype ι] {f : ι → Option β} {i : ι}

/-- The number of slots in use. -/
def used (f : ι → Option β) : Nat := (Finset.univ.filter fun i => (f i).isSome).card

theorem used_eq_zero : used f = 0 ↔ ∀ i, f i = none := by
  simp [used, filter_eq_empty_iff]

theorem used_eq_card : used f = Fintype.card ι ↔ ∀ i, (f i).isSome := by
  unfold used
  rw [← card_univ, card_filter_eq_iff]
  simp

variable [DecidableEq ι]

theorem used_store_free (h : f i = none) (x : β) : used (update f i (some x)) = used f + 1 := by
  have hset : (Finset.univ.filter fun j => (update f i (some x) j).isSome) =
      insert i (Finset.univ.filter fun j => (f j).isSome) := by
    ext j
    by_cases hj : j = i
    · subst hj
      simp
    · simp [hj]
  rw [used, hset, card_insert_of_notMem (by simp [h]), used]

theorem used_store_used {y : β} (h : f i = some y) (x : β) :
    used (update f i (some x)) = used f := by
  unfold used
  congr 1
  ext j
  by_cases hj : j = i
  · subst hj
    simp [h]
  · simp [update_of_ne hj]

theorem used_clear {y : β} (h : f i = some y) : used f = used (update f i none) + 1 := by
  have hback : f = update (update f i none) i (some y) := by
    rw [update_idem, ← h, update_eq_self]
  conv_lhs => rw [hback]
  exact used_store_free (update_self ..) y

theorem used_eq_one {x : β} (h : used f = 1) (hi : f i = some x) {j : ι} (hj : j ≠ i) :
    f j = none := by
  have hrest : used (update f i none) = 0 := by
    have := used_clear hi
    omega
  rw [← update_of_ne hj none f]
  exact used_eq_zero.mp hrest j

end

section

variable {w : Nat}

def setBit (bm : BitVec w) (i : Fin w) : BitVec w := bm ||| BitVec.twoPow w i

def clearBit (bm : BitVec w) (i : Fin w) : BitVec w := bm &&& ~~~ BitVec.twoPow w i

def isSet (bm : BitVec w) (i : Fin w) : Bool := bm.getLsbD i

/-- Find first set: the lowest bit of the bitmap that is set. -/
def firstSet (bm : BitVec w) : Option (Fin w) := (List.finRange w).find? (isSet bm)

@[simp] theorem isSet_setBit (bm : BitVec w) (i j : Fin w) :
    isSet (setBit bm i) j = (isSet bm j || decide (j = i)) := by
  simp [isSet, setBit, Fin.ext_iff, eq_comm]

@[simp] theorem isSet_clearBit (bm : BitVec w) (i j : Fin w) :
    isSet (clearBit bm i) j = (isSet bm j && !decide (j = i)) := by
  simp [isSet, clearBit, Fin.ext_iff, eq_comm]

@[simp] theorem isSet_allOnes (i : Fin w) : isSet (BitVec.allOnes w) i = true := by
  simp [isSet]

theorem eq_zero_iff {bm : BitVec w} : bm = 0 ↔ ∀ i, isSet bm i = false := by
  constructor
  · rintro rfl i
    simp [isSet]
  · intro h
    apply BitVec.eq_of_getLsbD_eq
    intro i hi
    rw [show bm.getLsbD i = isSet bm ⟨i, hi⟩ from rfl, h]
    simp

theorem firstSet_eq_none {bm : BitVec w} : firstSet bm = none ↔ ∀ i, isSet bm i = false := by
  simp [firstSet]

theorem firstSet_eq_some {bm : BitVec w} {i : Fin w} (h : firstSet bm = some i) :
    isSet bm i = true ∧ ∀ j < i, isSet bm j = false := by
  obtain ⟨hi, as, bs, hsplit, has⟩ := List.find?_eq_some_iff_append.mp h
  refine ⟨hi, fun j hj => ?_⟩
  -- the list of all slots is sorted, so what stands before `i` is what is below it
  have hmem : j ∈ as := by
    have hall : j ∈ as ++ i :: bs := hsplit ▸ mem_finRange j
    rcases mem_append.mp hall with ha | hb
    · exact ha
    · have hsorted : (as ++ i :: bs).Pairwise (· < ·) := hsplit ▸ pairwise_lt_finRange w
      have htail := (pairwise_append.mp hsorted).2.1
      rcases List.mem_cons.mp hb with rfl | hb
      · exact absurd hj (lt_irrefl _)
      · exact absurd ((List.pairwise_cons.mp htail).1 j hb) (by omega)
  simpa using has j hmem

end

section

variable {b : Nat}

/-- The digit of `k` at place `h`. -/
def digit (b k h : Nat) : Nat := k / b ^ h % b

theorem mod_pow_succ_eq_iff (hb : 0 < b) (j k h : Nat) :
    j % b ^ (h + 1) = k % b ^ (h + 1) ↔ digit b j h = digit b k h ∧ j % b ^ h = k % b ^ h := by
  have hp : 0 < b ^ h := Nat.pow_pos hb
  have hsplit : ∀ n, n % b ^ (h + 1) = n % b ^ h + b ^ h * digit b n h := by
    intro n
    rw [digit, Nat.pow_succ, Nat.mod_mul]
  rw [hsplit, hsplit]
  constructor
  · intro he
    have hlow : j % b ^ h = k % b ^ h := by
      have := congrArg (· % b ^ h) he
      simpa [Nat.add_mul_mod_self_left] using this
    refine ⟨?_, hlow⟩
    have : b ^ h * digit b j h = b ^ h * digit b k h := by omega
    exact Nat.eq_of_mul_eq_mul_left hp this
  · rintro ⟨hd, hm⟩
    rw [hd, hm]

end

end Mach.Lib.Slots
