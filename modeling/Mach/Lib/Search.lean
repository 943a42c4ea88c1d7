import Mathlib.Logic.Relation

/-!
# Depth-first search without marks

A search for `goal` that goes through the successors of a vertex in their order and down
each before it tries the next. It keeps no record of the vertices it has been at, so on a
graph with cycles it need not end: `search` counts the depth it may still go, and gives
`none` where that is not enough.

What decides whether it ends is which vertices lead only to finite paths (`Ends`), and what
it meets on its way to `goal` before the path that it takes (`Led`).
-/

namespace Mach.Lib.Search

open List

variable {α : Type}

/-- No path from `x` goes on for ever. -/
def Ends (next : α → List α) (x : α) : Prop := Acc (fun y x => y ∈ next x) x

/-- A path of at least one step. -/
def Leads (next : α → List α) (x goal : α) : Prop :=
  Relation.TransGen (fun x y => y ∈ next x) x goal

/-- A path to `goal` on which every successor that is tried before the path's own has only
finite paths below it. -/
inductive Led (next : α → List α) (goal : α) : α → Prop
  | here {x : α} {pre post : List α} (hx : next x = pre ++ goal :: post)
      (hpre : ∀ z ∈ pre, Ends next z) : Led next goal x
  | down {x y : α} {pre post : List α} (hx : next x = pre ++ y :: post)
      (hpre : ∀ z ∈ pre, Ends next z) (hy : Led next goal y) : Led next goal x

variable {next : α → List α} {goal x : α}

theorem Led.leads (h : Led next goal x) : Leads next x goal := by
  induction h with
  | here hx _ => exact .single (by simp [hx])
  | down hx _ _ ih => exact .head (by simp [hx]) ih

/-! ## The loop -/

variable [DecidableEq α] {down : α → Option Bool}

/-- The loop over the successors of a vertex; `down` searches from one of them. -/
def scan (down : α → Option Bool) (goal : α) : List α → Option Bool
  | [] => some false
  | y :: ys =>
    if y = goal then some true
    else match down y with
      | none => none
      | some true => some true
      | some false => scan down goal ys

def search (next : α → List α) (goal : α) : Nat → α → Option Bool
  | 0, _ => none
  | depth + 1, x => scan (search next goal depth) goal (next x)

variable {ys : List α} {b : Bool} {depth : Nat}

theorem scan_false (h : scan down goal ys = some false) :
    ∀ y ∈ ys, y ≠ goal ∧ down y = some false := by
  induction ys with
  | nil =>
    intro y hy
    cases hy
  | cons z zs ih =>
    by_cases hz : z = goal
    · simp [scan, hz] at h
    · cases hd : down z with
      | none => simp [scan, hz, hd] at h
      | some b =>
        cases b with
        | true => simp [scan, hz, hd] at h
        | false =>
          intro y hy
          rcases mem_cons.mp hy with rfl | hy
          · exact ⟨hz, hd⟩
          · exact ih (by simpa [scan, hz, hd] using h) y hy

theorem scan_true (h : scan down goal ys = some true) :
    ∃ pre y post, ys = pre ++ y :: post ∧ (∀ z ∈ pre, down z = some false) ∧
      (y = goal ∨ down y = some true) := by
  induction ys with
  | nil => cases h
  | cons z zs ih =>
    by_cases hz : z = goal
    · exact ⟨[], z, zs, rfl, by simp, .inl hz⟩
    · cases hd : down z with
      | none => simp [scan, hz, hd] at h
      | some b =>
        cases b with
        | true => exact ⟨[], z, zs, rfl, by simp, .inr hd⟩
        | false =>
          obtain ⟨pre, y, post, rfl, hpre, hy⟩ := ih (by simpa [scan, hz, hd] using h)
          refine ⟨z :: pre, y, post, rfl, ?_, hy⟩
          intro w hw
          rcases mem_cons.mp hw with rfl | hw
          · exact hd
          · exact hpre w hw

theorem scan_answers {pre : List α} (hpre : ∀ z ∈ pre, ∃ b, down z = some b) (goal : α)
    (ys : List α) :
    scan down goal (pre ++ ys) = some true ∨ scan down goal (pre ++ ys) = scan down goal ys := by
  induction pre with
  | nil => exact .inr rfl
  | cons z zs ih =>
    by_cases hz : z = goal
    · exact .inl (by simp [scan, hz])
    · obtain ⟨b, hb⟩ := hpre z (by simp)
      cases b with
      | true => exact .inl (by simp [scan, hz, hb])
      | false =>
        rw [cons_append, scan, if_neg hz, hb]
        exact ih (fun w hw => hpre w (mem_cons_of_mem z hw))

theorem scan_mono {down' : α → Option Bool} (hle : ∀ y b, down y = some b → down' y = some b)
    (h : scan down goal ys = some b) :
    scan down' goal ys = some b := by
  induction ys with
  | nil => exact h
  | cons z zs ih =>
    by_cases hz : z = goal
    · simpa [scan, hz] using h
    · cases hd : down z with
      | none => simp [scan, hz, hd] at h
      | some c =>
        have hd' := hle z c hd
        cases c with
        | true => simpa [scan, hz, hd, hd'] using h
        | false =>
          rw [scan, if_neg hz, hd']
          exact ih (by simpa [scan, hz, hd] using h)

/-! ## The search -/

theorem search_succ {x : α} (h : search next goal depth x = some b) :
    search next goal (depth + 1) x = some b := by
  induction depth generalizing x b with
  | zero => cases h
  | succ depth ih => exact scan_mono (fun y c hy => ih hy) h

theorem search_mono {depth' : Nat} {x : α} (hle : depth ≤ depth')
    (h : search next goal depth x = some b) : search next goal depth' x = some b := by
  induction hle with
  | refl => exact h
  | step _ ih => exact search_succ ih

theorem search_all (h : ∀ y ∈ ys, ∃ depth b, search next goal depth y = some b) :
    ∃ depth, ∀ y ∈ ys, ∃ b, search next goal depth y = some b := by
  induction ys with
  | nil => exact ⟨0, by simp⟩
  | cons z zs ih =>
    obtain ⟨d, b, hd⟩ := h z (by simp)
    obtain ⟨e, he⟩ := ih (fun y hy => h y (mem_cons_of_mem z hy))
    refine ⟨max d e, ?_⟩
    intro y hy
    rcases mem_cons.mp hy with rfl | hy
    · exact ⟨b, search_mono (Nat.le_max_left d e) hd⟩
    · obtain ⟨c, hc⟩ := he y hy
      exact ⟨c, search_mono (Nat.le_max_right d e) hc⟩

theorem search_false (h : search next goal depth x = some false) :
    Ends next x ∧ ¬ Leads next x goal := by
  induction depth generalizing x with
  | zero => cases h
  | succ depth ih =>
    have hall := scan_false h
    refine ⟨Acc.intro x (fun y hy => (ih (hall y hy).2).1), ?_⟩
    intro hleads
    rcases Relation.TransGen.head'_iff.mp hleads with ⟨y, hy, hrest⟩
    rcases Relation.reflTransGen_iff_eq_or_transGen.mp hrest with heq | hrest
    · exact (hall y hy).1 heq.symm
    · exact (ih (hall y hy).2).2 hrest

theorem search_true (h : search next goal depth x = some true) : Led next goal x := by
  induction depth generalizing x with
  | zero => cases h
  | succ depth ih =>
    obtain ⟨pre, y, post, hx, hpre, hy⟩ := scan_true h
    have hends : ∀ z ∈ pre, Ends next z := fun z hz => (search_false (hpre z hz)).1
    rcases hy with rfl | hy
    · exact .here hx hends
    · exact .down hx hends (ih hy)

theorem Ends.answers (h : Ends next x) (goal : α) :
    ∃ depth b, search next goal depth x = some b := by
  induction h with
  | intro x _ ih =>
    obtain ⟨depth, hdepth⟩ := search_all ih
    refine ⟨depth + 1, ?_⟩
    rcases scan_answers hdepth goal [] with h | h
    · exact ⟨true, by simpa [search] using h⟩
    · exact ⟨false, by simpa [search, scan] using h⟩

theorem Led.found (h : Led next goal x) : ∃ depth, search next goal depth x = some true := by
  induction h with
  | @here x pre post hx hpre =>
    obtain ⟨depth, hdepth⟩ := search_all (fun z hz => (hpre z hz).answers goal)
    refine ⟨depth + 1, ?_⟩
    rw [search, hx]
    rcases scan_answers hdepth goal (goal :: post) with h | h
    · exact h
    · simpa [scan] using h
  | @down x y pre post hx hpre _ ih =>
    obtain ⟨depth, hdepth⟩ := search_all (fun z hz => (hpre z hz).answers goal)
    obtain ⟨e, he⟩ := ih
    -- the same depth for the successors before `y` and for `y`
    have hdepth' : ∀ z ∈ pre, ∃ b, search next goal (max depth e) z = some b := by
      intro z hz
      obtain ⟨b, hb⟩ := hdepth z hz
      exact ⟨b, search_mono (Nat.le_max_left depth e) hb⟩
    have he' := search_mono (Nat.le_max_right depth e) he
    refine ⟨max depth e + 1, ?_⟩
    rw [search, hx]
    rcases scan_answers hdepth' goal (y :: post) with h | h
    · exact h
    · rw [h, scan, he']
      split <;> rfl

end Mach.Lib.Search
