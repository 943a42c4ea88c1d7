/-!
# Calls in progress

Any number of calls run side by side, each at some point of its code; the pool is the list
of these points. A step of one call replaces its point, and a wakeup maps over all of them.
How many calls are at a point of a kind is a `countP`; what they contribute to a balance is
a `total`.
-/

namespace Mach.Lib.Pool

open List

variable {α : Type} {l : List α} {i : Nat} {c c' : α} {p : α → Bool}

theorem countP_set (h : l[i]? = some c) (p : α → Bool) (c' : α) :
    (l.set i c').countP p + (p c).toNat = l.countP p + (p c').toNat := by
  obtain ⟨hi, hc⟩ := List.getElem?_eq_some_iff.mp h
  rw [List.countP_set hi, hc]
  have hpos : p c = true → 0 < l.countP p := by
    intro hp
    exact countP_pos_iff.mpr ⟨c, mem_of_getElem? h, hp⟩
  cases hp : p c <;> cases hp' : p c'
  · simp
  · simp
  · have := hpos hp
    simp
    omega
  · have := hpos hp
    simp
    omega

theorem eq_of_mem_set (h : l[i]? = some c) (hp : p c = true) (hone : l.countP p = 1) {d : α}
    (hd : d ∈ l.set i c') (hpd : p d = true) : d = c' := by
  obtain ⟨hi, hc⟩ := List.getElem?_eq_some_iff.mp h
  have hl : l = l.take i ++ c :: l.drop (i + 1) := by
    rw [← hc, getElem_cons_drop, take_append_drop]
  have hnone : (l.take i).countP p = 0 ∧ (l.drop (i + 1)).countP p = 0 := by
    rw [hl, List.countP_append, countP_cons_of_pos hp] at hone
    omega
  rw [set_eq_take_append_cons_drop, if_pos hi] at hd
  rcases mem_append.mp hd with hd | hd
  · exact absurd hpd (countP_eq_zero.mp hnone.1 d hd)
  · rcases mem_cons.mp hd with hd | hd
    · exact hd
    · exact absurd hpd (countP_eq_zero.mp hnone.2 d hd)

theorem forall_mem_set {P : α → Prop} (h : ∀ c ∈ l, P c) (hc : P c') (i : Nat) :
    ∀ c ∈ l.set i c', P c := by
  intro c hmem
  rcases mem_or_eq_of_mem_set hmem with hmem | rfl
  · exact h c hmem
  · exact hc

theorem forall_mem_append {P : α → Prop} (h : ∀ c ∈ l, P c) (hc : P c') : ∀ c ∈ l ++ [c'], P c := by
  intro c hmem
  rcases mem_append.mp hmem with hmem | hmem
  · exact h c hmem
  · rw [mem_singleton.mp hmem]
    exact hc

theorem countP_append (p : α → Bool) (l : List α) (c : α) :
    (l ++ [c]).countP p = l.countP p + (p c).toNat := by
  rw [List.countP_append, countP_singleton]
  cases p c <;> rfl

theorem countP_map_of_eq {g : α → α} (h : ∀ c, p (g c) = p c) (l : List α) :
    (l.map g).countP p = l.countP p := by
  rw [countP_map]
  exact countP_congr fun c _ => by rw [Function.comp_apply, h]

/-! ## Balances -/

/-- What all calls contribute. -/
def total (f : α → Int) : List α → Int
  | [] => 0
  | c :: l => f c + total f l

variable {f g : α → Int}

theorem total_set (h : l[i]? = some c) (f : α → Int) (c' : α) :
    total f (l.set i c') + f c = total f l + f c' := by
  induction l generalizing i with
  | nil => cases h
  | cons a l ih =>
    cases i with
    | zero =>
      cases h
      simp only [set_cons_zero, total]
      omega
    | succ i =>
      have := ih h
      simp only [set_cons_succ, total]
      omega

theorem total_append (f : α → Int) (l : List α) (c : α) : total f (l ++ [c]) = total f l + f c := by
  induction l with
  | nil => simp [nil_append, total]
  | cons a l ih =>
    simp only [cons_append, total, ih]
    omega

theorem total_le (h : ∀ c ∈ l, f c ≤ g c) : total f l ≤ total g l := by
  induction l with
  | nil => exact Int.le_refl 0
  | cons a l ih =>
    have ha := h a mem_cons_self
    have hl := ih fun c hc => h c (mem_cons_of_mem a hc)
    simp only [total]
    omega

theorem total_add (f g : α → Int) (l : List α) :
    total (fun c => f c + g c) l = total f l + total g l := by
  induction l with
  | nil => rfl
  | cons a l ih =>
    simp only [total, ih]
    omega

theorem total_eq_zero (h : ∀ c ∈ l, f c = 0) : total f l = 0 := by
  induction l with
  | nil => rfl
  | cons a l ih =>
    rw [total, h a mem_cons_self, ih fun c hc => h c (mem_cons_of_mem a hc)]
    rfl

theorem total_nonneg (h : ∀ c ∈ l, 0 ≤ f c) : 0 ≤ total f l := by
  have := total_le h
  rwa [total_eq_zero fun _ _ => rfl] at this

end Mach.Lib.Pool
