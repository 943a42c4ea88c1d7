import Mathlib.Data.List.Nodup
import Mathlib.Data.List.Chain

/-!
# Circular doubly linked lists

Nodes have a link in each direction; a list is a ring that goes from its head through the
nodes `xs` back to the head, `Ring m h xs`. Two nodes are `Linked` if the links between them
agree.

The rules for inserting and unlinking a node ask for what the links are *afterwards*, not
for the assignments that bring it about, so that they serve every order of assignments.
-/

namespace Mach.Lib.DList

open List

variable {A : Type}

structure Links (A : Type) where
  next : A → A
  prev : A → A

def Links.Linked (m : Links A) (a b : A) : Prop := m.next a = b ∧ m.prev b = a

/-- The nodes `xs`, in this order, form the list with head `h`. -/
structure Ring (m : Links A) (h : A) (xs : List A) : Prop where
  nodup : (h :: xs).Nodup
  chain : (h :: xs ++ [h]).IsChain m.Linked

variable {m m' : Links A} {h x p n : A} {xs ys : List A}

theorem isChain_congr : ∀ {l : List A}, l.IsChain m.Linked →
    (∀ y ∈ l.dropLast, m'.next y = m.next y) → (∀ y ∈ l.tail, m'.prev y = m.prev y) →
    l.IsChain m'.Linked
  | [], _, _, _ => .nil
  | [a], _, _, _ => .singleton a
  | a :: b :: l, hc, hn, hp => by
    rw [isChain_cons_cons] at hc ⊢
    refine ⟨⟨?_, ?_⟩, isChain_congr hc.2 ?_ ?_⟩
    · rw [hn a (by simp)]
      exact hc.1.1
    · rw [hp b (by simp)]
      exact hc.1.2
    · intro y hy
      exact hn y (by rw [dropLast_cons_cons]; exact mem_cons_of_mem a hy)
    · intro y hy
      exact hp y (mem_cons_of_mem b hy)

theorem Ring.congr (hr : Ring m h xs) (hn : ∀ y ∈ h :: xs, m'.next y = m.next y)
    (hp : ∀ y ∈ h :: xs, m'.prev y = m.prev y) : Ring m' h xs := by
  refine ⟨hr.nodup, isChain_congr hr.chain ?_ ?_⟩
  · intro y hy
    rw [dropLast_concat] at hy
    exact hn y hy
  · intro y hy
    have hmem : y ∈ xs ∨ y = h := by simpa using hy
    rcases hmem with hy | rfl
    · exact hp y (mem_cons_of_mem h hy)
    · exact hp y mem_cons_self

theorem perm_middle (h x : A) (xs ys : List A) :
    List.Perm (h :: (xs ++ x :: ys)) (x :: h :: (xs ++ ys)) :=
  (List.perm_middle.cons h).trans (List.Perm.swap x h _)

section

/-! ### The two neighbours of a place in the list

`p` is the node before the place between `xs` and `ys`, `n` the one after it. -/

variable (hp : (h :: xs).getLast? = some p) (hn : (ys ++ [h]).head? = some n)

include hp in
theorem mem_of_before : p ∈ h :: xs := mem_of_getLast? hp

include hn in
theorem mem_of_after : n ∈ ys ++ [h] := mem_of_head? hn

theorem chains_of_ring (hxs : (h :: xs).IsChain m.Linked) (hys : (ys ++ [h]).IsChain m.Linked)
    (hnd : (h :: (xs ++ ys)).Nodup) (hp : (h :: xs).getLast? = some p)
    (hn : (ys ++ [h]).head? = some n)
    (hnext : ∀ y ∈ h :: (xs ++ ys), y ≠ p → m'.next y = m.next y)
    (hprev : ∀ y ∈ h :: (xs ++ ys), y ≠ n → m'.prev y = m.prev y) :
    (h :: xs).IsChain m'.Linked ∧ (ys ++ [h]).IsChain m'.Linked := by
  obtain ⟨hh, hrest⟩ := nodup_cons.mp hnd
  obtain ⟨hndx, hndy, hdisj⟩ := nodup_append.mp hrest
  have hhx : h ∉ xs := fun hm => hh (mem_append_left ys hm)
  have hhy : h ∉ ys := fun hm => hh (mem_append_right xs hm)
  constructor
  · apply isChain_congr hxs
    · intro y hy
      have hmem := dropLast_subset _ hy
      apply hnext y
      · rcases mem_cons.mp hmem with rfl | hm
        · exact mem_cons_self
        · exact mem_cons_of_mem h (mem_append_left ys hm)
      · -- `p` is the last one of the list, and it is there only once
        rintro rfl
        have hsplit : (h :: xs).dropLast ++ [y] = h :: xs := by
          cases hp
          exact dropLast_append_getLast (cons_ne_nil h xs)
        have hnd' : (h :: xs).Nodup := nodup_cons.mpr ⟨hhx, hndx⟩
        rw [← hsplit] at hnd'
        exact (nodup_append.mp hnd').2.2 y hy y (mem_singleton_self y) rfl
    · intro y hy
      apply hprev y (mem_cons_of_mem h (mem_append_left ys hy))
      rintro rfl
      rcases mem_append.mp (mem_of_after hn) with hm | hm
      · exact hdisj y hy y hm rfl
      · exact hhx (mem_singleton.mp hm ▸ hy)
  · apply isChain_congr hys
    · intro y hy
      rw [dropLast_concat] at hy
      apply hnext y (mem_cons_of_mem h (mem_append_right xs hy))
      rintro rfl
      rcases mem_cons.mp (mem_of_before hp) with rfl | hm
      · exact hhy hy
      · exact hdisj y hm y hy rfl
    · intro y hy
      have hmem : y ∈ ys ++ [h] := mem_of_mem_tail hy
      apply hprev y
      · rcases mem_append.mp hmem with hm | hm
        · exact mem_cons_of_mem h (mem_append_right xs hm)
        · rw [mem_singleton.mp hm]
          exact mem_cons_self
      · rintro rfl
        have hnd' : (ys ++ [h]).Nodup := by
          refine nodup_append.mpr ⟨hndy, nodup_singleton h, ?_⟩
          intro a ha b hb hab
          exact hhy (mem_singleton.mp hb ▸ hab ▸ ha)
        cases hl : ys ++ [h] with
        | nil => simp at hl
        | cons a l =>
          rw [hl] at hn hy hnd'
          cases hn
          exact (nodup_cons.mp hnd').1 hy

include hp hn

theorem Ring.linked (hr : Ring m h (xs ++ ys)) : m.Linked p n := by
  have hc := hr.chain
  rw [← cons_append, append_assoc, isChain_append] at hc
  exact hc.2.2 p hp n hn

theorem Ring.insert (hr : Ring m h (xs ++ ys)) (hx : x ∉ h :: (xs ++ ys))
    (hpx : m'.Linked p x) (hxn : m'.Linked x n)
    (hnext : ∀ y ∈ h :: (xs ++ ys), y ≠ p → m'.next y = m.next y)
    (hprev : ∀ y ∈ h :: (xs ++ ys), y ≠ n → m'.prev y = m.prev y) :
    Ring m' h (xs ++ x :: ys) := by
  have hc := hr.chain
  rw [← cons_append, append_assoc, isChain_append] at hc
  obtain ⟨h1, h2⟩ := chains_of_ring hc.1 hc.2.1 hr.nodup hp hn hnext hprev
  constructor
  · exact (perm_middle h x xs ys).nodup_iff.mpr (nodup_cons.mpr ⟨hx, hr.nodup⟩)
  · rw [← cons_append, append_assoc, isChain_append]
    refine ⟨h1, ?_, ?_⟩
    · rw [cons_append, isChain_cons]
      refine ⟨?_, h2⟩
      intro y hy
      rw [hn] at hy
      cases hy
      exact hxn
    · intro a ha b hb
      rw [hp] at ha
      cases ha
      cases hb
      exact hpx

theorem Ring.unlink (hr : Ring m h (xs ++ x :: ys)) (hpn : m'.Linked p n)
    (hnext : ∀ y ∈ h :: (xs ++ ys), y ≠ p → m'.next y = m.next y)
    (hprev : ∀ y ∈ h :: (xs ++ ys), y ≠ n → m'.prev y = m.prev y) :
    Ring m' h (xs ++ ys) := by
  have hc := hr.chain
  rw [← cons_append, append_assoc, isChain_append] at hc
  have hys := hc.2.1
  rw [cons_append, isChain_cons] at hys
  have hnd := (nodup_cons.mp ((perm_middle h x xs ys).nodup_iff.mp hr.nodup)).2
  obtain ⟨h1, h2⟩ := chains_of_ring hc.1 hys.2 hnd hp hn hnext hprev
  refine ⟨hnd, ?_⟩
  rw [← cons_append, append_assoc, isChain_append]
  refine ⟨h1, h2, ?_⟩
  intro a ha b hb
  rw [hp] at ha
  rw [hn] at hb
  cases ha
  cases hb
  exact hpn

end

/-! ### Neighbours -/

theorem exists_before (h : A) (xs : List A) : ∃ p, (h :: xs).getLast? = some p :=
  ⟨_, List.getLast?_eq_some_getLast (cons_ne_nil h xs)⟩

theorem exists_after (h : A) (ys : List A) : ∃ n, (ys ++ [h]).head? = some n := by
  cases ys with
  | nil => exact ⟨h, rfl⟩
  | cons y ys => exact ⟨y, rfl⟩

theorem before_mem (hp : (h :: xs).getLast? = some p) : p ∈ h :: (xs ++ ys) := by
  rcases mem_cons.mp (mem_of_before hp) with rfl | hm
  · exact mem_cons_self
  · exact mem_cons_of_mem h (mem_append_left ys hm)

theorem after_mem (hn : (ys ++ [h]).head? = some n) : n ∈ h :: (xs ++ ys) := by
  rcases mem_append.mp (mem_of_after hn) with hm | hm
  · exact mem_cons_of_mem h (mem_append_right xs hm)
  · rw [mem_singleton.mp hm]
    exact mem_cons_self

theorem Ring.neighbours (hr : Ring m h (xs ++ x :: ys)) :
    ∃ p n, (h :: xs).getLast? = some p ∧ (ys ++ [h]).head? = some n ∧ m.Linked p x ∧
      m.Linked x n ∧ x ≠ p ∧ x ≠ n := by
  obtain ⟨p, hp⟩ := exists_before h xs
  obtain ⟨n, hn⟩ := exists_after h ys
  have hnot := (nodup_cons.mp ((perm_middle h x xs ys).nodup_iff.mp hr.nodup)).1
  refine ⟨p, n, hp, hn, hr.linked hp rfl, ?_, fun he => hnot (he ▸ before_mem hp),
    fun he => hnot (he ▸ after_mem hn)⟩
  have hr' := hr
  rw [append_cons] at hr'
  refine hr'.linked ?_ hn
  rw [← cons_append, List.getLast?_concat]

theorem Ring.prev_next (hr : Ring m h xs) (hx : x ∈ h :: xs) :
    m.prev (m.next x) = x ∧ m.next x ∈ h :: xs := by
  have hlast : ∀ as bs : List A, xs = as ++ bs → (h :: as).getLast? = some x →
      m.prev (m.next x) = x ∧ m.next x ∈ h :: xs := by
    rintro as bs rfl hp
    obtain ⟨n, hn⟩ := exists_after h bs
    obtain ⟨h1, h2⟩ := hr.linked hp hn
    rw [h1, h2]
    exact ⟨rfl, after_mem hn⟩
  rcases mem_cons.mp hx with rfl | hm
  · exact hlast [] xs rfl rfl
  · obtain ⟨as, bs, rfl⟩ := append_of_mem hm
    refine hlast (as ++ [x]) bs (append_cons as x bs) ?_
    rw [← cons_append, List.getLast?_concat]

/-! ### Walks -/

theorem not_of_mem_dropWhile {p : A → Bool}
    (hmono : xs.Pairwise fun a b => p b = true → p a = true) :
    ∀ u ∈ xs.dropWhile p, p u = false := by
  induction xs with
  | nil =>
    intro u hu
    exact absurd hu not_mem_nil
  | cons a xs ih =>
    obtain ⟨ha, hxs⟩ := pairwise_cons.mp hmono
    intro u hu
    by_cases hpa : p a = true
    · rw [dropWhile_cons_of_pos hpa] at hu
      exact ih hxs u hu
    · rw [dropWhile_cons_of_neg hpa] at hu
      rcases mem_cons.mp hu with rfl | hu
      · exact Bool.eq_false_iff.mpr hpa
      · exact Bool.eq_false_iff.mpr fun hpu => hpa (ha u hu hpu)

end Mach.Lib.DList
