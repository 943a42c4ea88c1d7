import Mach.Lib.DList

/-!
# Lists of nodes

The doubly linked lists of `kern/list.h`, whose heads are nodes too. Each operation is written
as its assignments, in their order; what it does to a list is said with `Ring`, and that it
leaves all other lists alone with the lemmas about nodes that are not in it.
-/

namespace Mach.Kern.ListNode

open Mach.Lib.DList Function

variable {A : Type} [DecidableEq A]

/-- `list_add`. -/
def listAdd (m : Links A) (prev next node : A) : Links A :=
  let m := { m with prev := update m.prev next node }
  let m := { m with next := update m.next node next }
  let m := { m with next := update m.next prev node }
  { m with prev := update m.prev node prev }

/-- `list_insert_before`. -/
def listInsertBefore (m : Links A) (next node : A) : Links A :=
  listAdd m (m.prev next) next node

/-- `list_remove`. -/
def listRemove (m : Links A) (node : A) : Links A :=
  let m := { m with next := update m.next (m.prev node) (m.next node) }
  { m with prev := update m.prev (m.next node) (m.prev node) }

variable {m : Links A} {h x y p n : A} {xs ys : List A}

theorem listAdd_spec (hp : x ≠ p) (hn : x ≠ n) :
    (listAdd m p n x).Linked p x ∧ (listAdd m p n x).Linked x n ∧
      (∀ y, y ≠ x → y ≠ p → (listAdd m p n x).next y = m.next y) ∧
      ∀ y, y ≠ x → y ≠ n → (listAdd m p n x).prev y = m.prev y := by
  unfold listAdd Links.Linked
  dsimp only
  refine ⟨⟨update_self .., update_self ..⟩, ⟨?_, ?_⟩, ?_, ?_⟩
  · rw [update_of_ne hp, update_self]
  · rw [update_of_ne (Ne.symm hn), update_self]
  · intro y hx hy
    rw [update_of_ne hy, update_of_ne hx]
  · intro y hx hy
    rw [update_of_ne hx, update_of_ne hy]

theorem listRemove_spec (hpx : m.prev x = p) (hxn : m.next x = n) (hp : x ≠ p) :
    (listRemove m x).Linked p n ∧ (∀ y, y ≠ p → (listRemove m x).next y = m.next y) ∧
      ∀ y, y ≠ n → (listRemove m x).prev y = m.prev y := by
  unfold listRemove Links.Linked
  dsimp only
  rw [hpx, update_of_ne hp, hxn]
  refine ⟨⟨update_self .., update_self ..⟩, ?_, ?_⟩
  · intro y hy
    exact update_of_ne hy ..
  · intro y hy
    exact update_of_ne hy ..

/-! ## In a list -/

section

variable (hr : Ring m h (xs ++ ys)) (hx : x ∉ h :: (xs ++ ys)) (hn : (ys ++ [h]).head? = some n)
include hr hx hn

theorem ring_insertBefore : Ring (listInsertBefore m n x) h (xs ++ x :: ys) := by
  obtain ⟨p, hp⟩ := exists_before h xs
  have hxp : x ≠ p := fun he => hx (he ▸ before_mem hp)
  have hxn : x ≠ n := fun he => hx (he ▸ after_mem hn)
  rw [listInsertBefore, (hr.linked hp hn).2]
  obtain ⟨h1, h2, h3, h4⟩ := listAdd_spec hxp hxn
  apply hr.insert hp hn hx h1 h2
  · intro y hy hyp
    exact h3 y (fun he => hx (he ▸ hy)) hyp
  · intro y hy hyn
    exact h4 y (fun he => hx (he ▸ hy)) hyn

theorem insertBefore_of_not_mem (hy : y ∉ h :: (xs ++ ys)) (hyx : y ≠ x) :
    (listInsertBefore m n x).next y = m.next y ∧ (listInsertBefore m n x).prev y = m.prev y := by
  obtain ⟨p, hp⟩ := exists_before h xs
  rw [listInsertBefore, (hr.linked hp hn).2]
  obtain ⟨-, -, h3, h4⟩ := listAdd_spec (x := x)
    (fun he => hx (he ▸ before_mem hp)) (fun he => hx (he ▸ after_mem hn))
  exact ⟨h3 y hyx fun he => hy (he ▸ before_mem hp), h4 y hyx fun he => hy (he ▸ after_mem hn)⟩

end

theorem ring_remove (hr : Ring m h (xs ++ x :: ys)) : Ring (listRemove m x) h (xs ++ ys) := by
  obtain ⟨p, n, hp, hn, hpx, hxn, hne, -⟩ := hr.neighbours
  obtain ⟨h1, h2, h3⟩ := listRemove_spec hpx.2 hxn.1 hne
  exact hr.unlink hp hn h1 (fun y _ hy => h2 y hy) fun y _ hy => h3 y hy

theorem remove_of_not_mem (hr : Ring m h (xs ++ x :: ys)) (hy : y ∉ h :: (xs ++ ys)) :
    (listRemove m x).next y = m.next y ∧ (listRemove m x).prev y = m.prev y := by
  obtain ⟨p, n, hp, hn, hpx, hxn, hne, -⟩ := hr.neighbours
  obtain ⟨-, h2, h3⟩ := listRemove_spec hpx.2 hxn.1 hne
  exact ⟨h2 y fun he => hy (he ▸ before_mem hp), h3 y fun he => hy (he ▸ after_mem hn)⟩

end Mach.Kern.ListNode
