import Mathlib.Data.List.Basic

/-!
# Runs

A list as a list of runs: a run is a value and how often it is repeated. `runs cap` cuts a
list, from the left, into the longest runs of at most `cap` elements; `expand` puts them
together again.
-/

namespace Mach.Lib

open List

variable {α : Type}

/-- The elements of the runs. -/
def expand (rs : List (α × Nat)) : List α := rs.flatMap fun r => List.replicate r.2 r.1

@[simp] theorem expand_nil : expand ([] : List (α × Nat)) = [] := rfl

@[simp] theorem expand_cons (r : α × Nat) (rs : List (α × Nat)) :
    expand (r :: rs) = List.replicate r.2 r.1 ++ expand rs := flatMap_cons ..

section

variable [DecidableEq α] (cap : Nat)

/-- The runs of a list that continues the run of `n` times `a`. -/
def runsFrom (a : α) (n : Nat) : List α → List (α × Nat)
  | [] => [(a, n)]
  | b :: l => if b = a ∧ n < cap then runsFrom a (n + 1) l else (a, n) :: runsFrom b 1 l

/-- The longest runs of at most `cap` elements. -/
def runs : List α → List (α × Nat)
  | [] => []
  | a :: l => runsFrom cap a 1 l

theorem expand_runsFrom (l : List α) :
    ∀ a n, expand (runsFrom cap a n l) = List.replicate n a ++ l := by
  induction l with
  | nil => exact fun _ _ => rfl
  | cons b l ih =>
    intro a n
    rw [runsFrom]
    split
    next h =>
      rw [ih, h.1, replicate_succ', append_assoc]
      rfl
    next h =>
      rw [expand_cons, ih]
      rfl

theorem expand_runs (l : List α) : expand (runs cap l) = l := by
  cases l with
  | nil => rfl
  | cons a l => exact expand_runsFrom cap l a 1

theorem mem_runsFrom (l : List α) :
    ∀ a n, 0 < n → n ≤ cap → ∀ r ∈ runsFrom cap a n l, 0 < r.2 ∧ r.2 ≤ cap := by
  induction l with
  | nil =>
    intro a n h0 hn r hr
    rw [mem_singleton.mp hr]
    exact ⟨h0, hn⟩
  | cons b l ih =>
    intro a n h0 hn r hr
    rw [runsFrom] at hr
    split at hr
    next h => exact ih a (n + 1) (by omega) (by omega) r hr
    next h =>
      rcases mem_cons.mp hr with rfl | hr
      · exact ⟨h0, hn⟩
      · exact ih b 1 (by omega) (by omega) r hr

theorem mem_runs {l : List α} (hcap : 0 < cap) {r : α × Nat} (hr : r ∈ runs cap l) :
    0 < r.2 ∧ r.2 ≤ cap := by
  cases l with
  | nil => cases hr
  | cons a l => exact mem_runsFrom cap l a 1 (by omega) hcap r hr

end

end Mach.Lib
