import Mathlib.Algebra.Order.BigOperators.Group.Finset
import Mathlib.Data.Nat.Bitwise
import Mathlib.Order.Interval.Finset.Nat
import Mathlib.Tactic.Abel

/-!
# Blocks of a buddy system

A block of order `k` has `2 ^ k` consecutive places and starts at a multiple of its size.
Its buddy is found by turning one bit of its start around, and the two together are the
block of the next order around them. Blocks are multisets of places: that a collection of
blocks covers some places, each of them once, is then one equation.
-/

namespace Mach.Lib.Buddy

open Function Multiset Finset Nat

/-- The places of the block of order `k` at `p`. -/
def block (p k : Nat) : Multiset Nat := Multiset.Ico p (p + 2 ^ k)

def Aligned (p k : Nat) : Prop := p % 2 ^ k = 0

instance (p k : Nat) : Decidable (Aligned p k) := inferInstanceAs (Decidable (p % 2 ^ k = 0))

def buddy (p k : Nat) : Nat := p ^^^ 2 ^ k

/-- The start of the block of order `k` around `p`. -/
def around (p k : Nat) : Nat := p - p % 2 ^ k

section

variable {p k x : Nat}

@[simp] theorem mem_block : x ∈ block p k ↔ p ≤ x ∧ x < p + 2 ^ k := mem_Ico

theorem head_mem_block (p k : Nat) : p ∈ block p k :=
  mem_block.mpr ⟨Nat.le_refl p, Nat.lt_add_of_pos_right (Nat.two_pow_pos k)⟩

@[simp] theorem card_block (p k : Nat) : (block p k).card = 2 ^ k := by
  have : Multiset.Ico p (p + 2 ^ k) = (Finset.Ico p (p + 2 ^ k)).val := rfl
  rw [block, this, card_val, Nat.card_Ico, Nat.add_sub_cancel_left]

theorem block_zero (p : Nat) : block p 0 = {p} := by
  have : Multiset.Ico p (p + 1) = (Finset.Ico p (p + 1)).val := rfl
  rw [block, pow_zero, this, Nat.Ico_succ_singleton]
  rfl

theorem block_succ (p k : Nat) : block p (k + 1) = block p k + block (p + 2 ^ k) k := by
  have hpow : p + 2 ^ (k + 1) = p + 2 ^ k + 2 ^ k := by
    rw [pow_succ, mul_two, add_assoc]
  rw [block, hpow]
  exact (Multiset.Ico_add_Ico_eq_Ico (le_add_right _ _) (le_add_right _ _)).symm

theorem Aligned.of_succ (h : Aligned p (k + 1)) : Aligned p k := by
  unfold Aligned at *
  exact mod_eq_zero_of_dvd (Dvd.dvd.trans (dvd_mul_right _ _) (dvd_of_mod_eq_zero h))

theorem Aligned.upper (h : Aligned p (k + 1)) : Aligned (p + 2 ^ k) k := by
  have := h.of_succ
  unfold Aligned at *
  rw [add_mod_right, this]

theorem aligned_around (p k : Nat) : Aligned (around p k) k := by
  exact sub_mod_eq_zero_of_mod_eq (mod_mod p (2 ^ k)).symm

theorem buddy_buddy (p k : Nat) : buddy (buddy p k) k = p := by
  rw [buddy, buddy, Nat.xor_assoc, Nat.xor_self, Nat.xor_zero]

theorem buddy_ne (p k : Nat) : buddy p k ≠ p := by
  intro h
  have hzero : 2 ^ k = 0 := by
    rw [← Nat.xor_xor_cancel_left p (2 ^ k)]
    unfold buddy at h
    rw [h, Nat.xor_self]
  exact absurd hzero (Nat.two_pow_pos k).ne'

theorem buddy_eq (h : Aligned p k) :
    buddy p k = if p % 2 ^ (k + 1) = 0 then p + 2 ^ k else p - 2 ^ k := by
  obtain ⟨m, rfl⟩ := Nat.dvd_of_mod_eq_zero h
  have hshift : 2 ^ k * m ^^^ 2 ^ k = 2 ^ k * (m ^^^ 1) := by
    have := Nat.shiftLeft_xor_distrib (a := m) (b := 1) (i := k)
    rw [Nat.shiftLeft_eq, Nat.shiftLeft_eq, Nat.shiftLeft_eq, Nat.one_mul, Nat.mul_comm,
      Nat.mul_comm m] at this
    exact this.symm
  have hmod : 2 ^ k * m % 2 ^ (k + 1) = 2 ^ k * (m % 2) := by
    rw [Nat.pow_succ, Nat.mul_mod_mul_left]
  have hpos := Nat.two_pow_pos k
  rw [buddy, hshift, hmod]
  rcases Nat.even_or_odd m with he | ho
  · rw [Nat.xor_one_of_even he, if_pos (by rw [Nat.even_iff.mp he, Nat.mul_zero]), Nat.mul_add,
      Nat.mul_one]
  · rw [Nat.xor_one_of_odd ho, if_neg (by rw [Nat.odd_iff.mp ho]; omega),
      Nat.mul_sub, Nat.mul_one]

theorem block_add_buddy (h : Aligned p k) :
    block p k + block (buddy p k) k = block (around p (k + 1)) (k + 1) := by
  have hlt : p % 2 ^ (k + 1) < 2 ^ (k + 1) := Nat.mod_lt p (Nat.two_pow_pos (k + 1))
  rw [buddy_eq h]
  split
  next hlow => rw [around, hlow, Nat.sub_zero, block_succ]
  next hhigh =>
    -- the remainder is one half
    have hrem : p % 2 ^ (k + 1) = 2 ^ k := by
      obtain ⟨m, rfl⟩ := Nat.dvd_of_mod_eq_zero h
      have hmod : 2 ^ k * m % 2 ^ (k + 1) = 2 ^ k * (m % 2) := by
        rw [Nat.pow_succ, Nat.mul_mod_mul_left]
      rw [hmod] at hhigh ⊢
      rcases Nat.mod_two_eq_zero_or_one m with h0 | h1
      · rw [h0] at hhigh
        exact absurd rfl hhigh
      · rw [h1, Nat.mul_one]
    have hle : 2 ^ k ≤ p := hrem ▸ Nat.mod_le p (2 ^ (k + 1))
    rw [around, hrem, block_succ, Nat.sub_add_cancel hle, add_comm]

theorem Aligned.nested {q j : Nat} (hp : Aligned p k) (hq : Aligned q j) (hkj : k ≤ j)
    (hx : x ∈ block p k) (hx' : x ∈ block q j) : p ∈ block q j := by
  rw [mem_block] at *
  obtain ⟨a, rfl⟩ := dvd_of_mod_eq_zero hp
  obtain ⟨b, rfl⟩ := (Nat.pow_dvd_pow 2 hkj).trans (dvd_of_mod_eq_zero hq)
  have hlt : 2 ^ k * b < 2 ^ k * (a + 1) := by
    rw [Nat.mul_add_one]
    omega
  have hle := Nat.mul_le_mul_left (2 ^ k) (Nat.lt_succ_iff.mp (Nat.lt_of_mul_lt_mul_left hlt))
  exact ⟨hle, by omega⟩

theorem Aligned.eq_of_mem {q : Nat} (hp : Aligned p k) (hq : Aligned q k) (h : p ∈ block q k) : p = q := by
  have hback := hq.nested hp le_rfl h (head_mem_block p k)
  exact le_antisymm (mem_block.mp hback).1 (mem_block.mp h).1

end

/-! ## Lists of blocks, one for each order -/

section

variable {N p k : Nat}

/-- The places of all blocks: `f k` has the starts of those of order `k`. -/
def places (N : Nat) (f : Nat → List Nat) : Multiset Nat :=
  ∑ k ∈ Finset.range N, (f k : Multiset Nat).bind fun p => block p k

variable {f : Nat → List Nat}

theorem block_le_places (hk : k < N) (hp : p ∈ f k) : block p k ≤ places N f := by
  have hlist : block p k ≤ (f k : Multiset Nat).bind fun p => block p k := by
    obtain ⟨t, ht⟩ := exists_cons_of_mem (Multiset.mem_coe.mpr hp)
    rw [ht, cons_bind]
    exact Multiset.le_add_right _ _
  exact hlist.trans (Finset.single_le_sum (fun _ _ => Multiset.zero_le _) (Finset.mem_range.mpr hk))

theorem mem_places {x : Nat} : x ∈ places N f ↔ ∃ k < N, ∃ p ∈ f k, x ∈ block p k := by
  simp [places, mem_sum, mem_bind]

theorem places_add {f' : Nat → List Nat} (hk : k < N) (hother : ∀ j, j ≠ k → f' j = f j)
    (hperm : (f' k : Multiset Nat) = p ::ₘ (f k : Multiset Nat)) :
    places N f' = places N f + block p k := by
  have hmem : k ∈ Finset.range N := Finset.mem_range.mpr hk
  have hrest : ∑ j ∈ (Finset.range N).erase k, (f' j : Multiset Nat).bind (fun p => block p j) =
      ∑ j ∈ (Finset.range N).erase k, (f j : Multiset Nat).bind fun p => block p j :=
    sum_congr rfl fun j hj => by rw [hother j (ne_of_mem_erase hj)]
  rw [places, places, ← add_sum_erase _ _ hmem, ← add_sum_erase _ _ hmem, hrest, hperm, cons_bind]
  abel

theorem places_erase (hk : k < N) (hp : p ∈ f k) :
    places N f = places N (update f k ((f k).erase p)) + block p k := by
  refine places_add hk (fun i hi => by rw [update_of_ne hi]) ?_
  rw [update_self]
  exact (cons_erase (Multiset.mem_coe.mpr hp)).symm

theorem card_places (f : Nat → List Nat) :
    (places N f).card = ∑ k ∈ range N, (f k).length * 2 ^ k := by
  rw [places, card_sum]
  refine sum_congr rfl fun k _ => ?_
  simp

theorem disjoint_of_nodup (hnodup : (places N f).Nodup) {q j x : Nat} (hk : k < N) (hp : p ∈ f k)
    (hj : j < N) (hq : q ∈ f j) (hx : x ∈ block p k) (hx' : x ∈ block q j) :
    p = q ∧ k = j := by
  by_contra hne
  -- without the block at `p`, the one at `q` is still there
  set f' : Nat → List Nat := update f k ((f k).erase p) with hf'
  have hplaces : places N f = places N f' + block p k := places_erase hk hp
  have hq' : q ∈ f' j := by
    rw [hf']
    by_cases hjk : j = k
    · subst hjk
      rw [update_self]
      exact (List.mem_erase_of_ne fun hqp => hne ⟨hqp.symm, rfl⟩).mpr hq
    · rw [update_of_ne hjk]
      exact hq
  have hx'' : x ∈ places N f' := mem_of_le (block_le_places hj hq') hx'
  rw [hplaces, nodup_add] at hnodup
  exact (disjoint_left.mp hnodup.2.2) hx'' hx

theorem covered_in_listed (haligned : ∀ k < N, ∀ p ∈ f k, Aligned p k)
    (hlonely : ∀ k < N - 1, ∀ p ∈ f k, buddy p k ∉ f k) : ∀ {k p : Nat}, k < N → Aligned p k →
      (∀ x ∈ block p k, x ∈ places N f) → ∃ j, k ≤ j ∧ j < N ∧ ∃ q ∈ f j, p ∈ block q j
  | 0, p, _, _, hall => by
    obtain ⟨j, hj, q, hq, hp⟩ := mem_places.mp (hall p (head_mem_block p 0))
    exact ⟨j, Nat.zero_le j, hj, q, hq, hp⟩
  | k + 1, p, hk, hp, hall => by
    rw [block_succ] at hall
    obtain ⟨i, hki, hi, q, hq, hpq⟩ := covered_in_listed haligned hlonely (lt_of_succ_lt hk) hp.of_succ
      fun x hx => hall x (Multiset.mem_add.mpr (.inl hx))
    obtain ⟨j, hkj, hj, r, hr, hpr⟩ := covered_in_listed haligned hlonely (lt_of_succ_lt hk) hp.upper
      fun x hx => hall x (Multiset.mem_add.mpr (.inr hx))
    rcases hki.lt_or_eq with hlt | rfl
    · exact ⟨i, hlt, hi, q, hq, hpq⟩
    rcases hkj.lt_or_eq with hlt | rfl
    · have hin : p + 2 ^ k ∈ block p (k + 1) := by
        rw [mem_block, pow_succ]
        have := Nat.two_pow_pos k
        omega
      exact ⟨j, hlt, hj, r, hr, hp.nested (haligned j hj r hr) hlt hin hpr⟩
    · -- both halves are listed, but they are buddies
      obtain rfl := hp.of_succ.eq_of_mem (haligned k hi q hq) hpq
      obtain rfl := hp.upper.eq_of_mem (haligned k hj r hr) hpr
      refine absurd hr ?_
      have hbuddy : buddy p k = p + 2 ^ k := (buddy_eq hp.of_succ).trans (if_pos hp)
      rw [← hbuddy]
      exact hlonely k (by omega) p hq

theorem nodup_list (hnodup : (places N f).Nodup) (hk : k < N) : (f k).Nodup := by
  refine List.nodup_iff_count_le_one.mpr fun p => ?_
  by_contra hcount
  have hp : p ∈ f k := List.count_pos_iff.mp (by omega)
  -- without one of the two, the other is still there
  have hplaces := places_erase hk hp
  have hstill : p ∈ (f k).erase p := List.count_pos_iff.mp (by rw [List.count_erase_self]; omega)
  have hmem : p ∈ places N (update f k ((f k).erase p)) :=
    mem_places.mpr ⟨k, hk, p, by rwa [update_self], head_mem_block p k⟩
  rw [hplaces, nodup_add] at hnodup
  exact disjoint_left.mp hnodup.2.2 hmem (head_mem_block p k)

end

end Mach.Lib.Buddy
