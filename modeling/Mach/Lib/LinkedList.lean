import Mathlib.Data.List.Nodup

/-!
# Intrusive linked lists

Cells are addressed by `A`; `next` gives the link of a cell and `null` ends a list.
`Seg next e xs f` says that the links lead from `e` through the cells `xs` to `f`. A
list starts at its head and ends at `null`.

`findPrev` is the search loop with which a cell is taken out of the middle of a list:
it goes along until it meets the cell, remembering the cell before it.
-/

namespace Mach.Lib.LinkedList

open List

variable {A : Type}

def Seg (null : A) (next : A → A) : A → List A → A → Prop
  | e, [], f => e = f
  | e, x :: xs, f => e = x ∧ x ≠ null ∧ Seg null next (next x) xs f

/-- The cells `xs` form the list with this head. -/
abbrev IsList (null : A) (next : A → A) (head : A) (xs : List A) : Prop :=
  Seg null next head xs null

variable {null : A} {next next' : A → A}

theorem Seg.append {e m f : A} : ∀ {xs ys : List A}, Seg null next e xs m → Seg null next m ys f →
    Seg null next e (xs ++ ys) f
  | [], _, hx, hy => by
    rwa [show e = m from hx]
  | _ :: _, _, ⟨he, hx, hrest⟩, hy => ⟨he, hx, Seg.append hrest hy⟩

theorem Seg.split {e f : A} : ∀ {xs ys : List A}, Seg null next e (xs ++ ys) f →
    ∃ m, Seg null next e xs m ∧ Seg null next m ys f
  | [], _, h => ⟨e, rfl, h⟩
  | _ :: _, _, ⟨he, hx, hrest⟩ =>
    have ⟨m, h1, h2⟩ := Seg.split hrest
    ⟨m, ⟨he, hx, h1⟩, h2⟩

theorem Seg.congr {e f : A} : ∀ {xs : List A}, Seg null next e xs f →
    (∀ x ∈ xs, next' x = next x) → Seg null next' e xs f
  | [], h, _ => h
  | x :: xs, ⟨he, hx, hrest⟩, hc => by
    refine ⟨he, hx, ?_⟩
    rw [hc x mem_cons_self]
    exact hrest.congr (forall_mem_cons.mp hc).2

theorem IsList.eq_nil {head : A} {xs : List A} (h : IsList null next head xs) :
    head = null ↔ xs = [] := by
  cases xs with
  | nil => exact ⟨fun _ => rfl, fun _ => h⟩
  | cons x xs =>
    obtain ⟨he, hx, -⟩ := h
    exact ⟨fun h0 => absurd (he.symm.trans h0) hx, nofun⟩

theorem IsList.unlink {head target p : A} {before after : List A}
    (h : IsList null next head (before ++ p :: target :: after))
    (hnodup : (before ++ p :: target :: after).Nodup)
    (hp : next' p = next target) (hother : ∀ x, x ≠ p → x ≠ target → next' x = next x) :
    IsList null next' head (before ++ p :: after) := by
  obtain ⟨m, hbefore, he, hpn, -, htn, hafter⟩ := Seg.split h
  obtain ⟨-, hn, hdisj⟩ := nodup_append.mp hnodup
  have hnp : ∀ x ∈ after, x ≠ p ∧ x ≠ target := by
    intro x hx
    obtain ⟨h1, h2⟩ := nodup_cons.mp hn
    obtain ⟨h3, -⟩ := nodup_cons.mp h2
    exact ⟨fun h => h1 (h ▸ mem_cons_of_mem _ hx), fun h => h3 (h ▸ hx)⟩
  refine Seg.append (hbefore.congr fun x hx => hother x ?_ ?_) ⟨he, hpn, ?_⟩
  · exact hdisj x hx p mem_cons_self
  · exact hdisj x hx target (mem_cons_of_mem _ mem_cons_self)
  · rw [hp]
    exact hafter.congr fun x hx => hother x (hnp x hx).1 (hnp x hx).2

variable [DecidableEq A]

/-- Search for `target` from `e` on: the cell before it, or `prev` if it is the
first. Without `target` the loop runs into `null`, or for ever. -/
def findPrev (null : A) (next : A → A) (target : A) : Nat → Option A → A → Option (Option A)
  | 0, _, _ => none
  | fuel + 1, prev, e =>
    if e = target then some prev
    else if e = null then none
    else findPrev null next target fuel (some e) (next e)

theorem findPrev_eq {target f : A} : ∀ {before after : List A} {e : A} {prev : Option A}
    {fuel : Nat}, Seg null next e (before ++ target :: after) f → target ∉ before →
    (before ++ target :: after).length ≤ fuel →
    findPrev null next target fuel prev e = some (before.getLast?.or prev)
  | [], after, e, prev, 0, _, _, hf => by simp at hf
  | [], after, e, prev, fuel + 1, h, _, _ => by
    rw [findPrev, if_pos h.1]
    rfl
  | x :: before, after, e, prev, 0, _, _, hf => by simp at hf
  | x :: before, after, e, prev, fuel + 1, ⟨he, hx, hrest⟩, hnot, hf => by
    subst he
    have hne : e ≠ target := fun h => hnot (h ▸ mem_cons_self)
    rw [findPrev, if_neg hne, if_neg hx, findPrev_eq hrest
      (fun h => hnot (mem_cons_of_mem _ h)) (by simpa using hf)]
    cases before with
    | nil => rfl
    | cons y ys =>
      rw [List.getLast?_cons_cons]
      cases h : (y :: ys).getLast? with
      | none => simp [List.getLast?_eq_none_iff] at h
      | some z => rfl

end Mach.Lib.LinkedList
