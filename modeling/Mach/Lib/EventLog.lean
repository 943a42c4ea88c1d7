/-!
# Logs and the automata that accept them

A system writes what it does to a log. What the log may look like is said by an automaton:
`after next q l` is the state it is in after the log, if it accepts it. That two kinds of
events alternate in the log can be read off the automaton (`alternates_of_after`).
-/

namespace Mach.Lib.EventLog

variable {Q E : Type} {next : Q → E → Option Q}

/-- The state after a log. -/
def after (next : Q → E → Option Q) : Q → List E → Option Q
  | q, [] => some q
  | q, e :: l =>
    match next q e with
    | none => none
    | some q' => after next q' l

theorem after_append {q q' q'' : Q} {l : List E} {e : E} (h : after next q l = some q')
    (he : next q' e = some q'') : after next q (l ++ [e]) = some q'' := by
  induction l generalizing q with
  | nil =>
    cases h
    simp [after, he]
  | cons a l ih =>
    rw [List.cons_append, after]
    rw [after] at h
    cases ha : next q a with
    | none => rw [ha] at h; cases h
    | some q1 =>
      rw [ha] at h
      exact ih h

/-- The events that switch something on and those that switch it off take turns. -/
def Alternates (on off : E → Bool) : Bool → List E → Prop
  | _, [] => True
  | b, e :: l => (on e = true → b = false) ∧ (off e = true → b = true) ∧
      Alternates on off (if on e then true else if off e then false else b) l

theorem alternates_of_after {on off : E → Bool} {φ : Q → Bool}
    (hon : ∀ q e q', next q e = some q' → on e = true → φ q = false ∧ φ q' = true)
    (hoff : ∀ q e q', next q e = some q' → off e = true → φ q = true ∧ φ q' = false)
    (hkeep : ∀ q e q', next q e = some q' → on e = false → off e = false → φ q' = φ q) :
    ∀ (l : List E) (q q' : Q), after next q l = some q' → Alternates on off (φ q) l := by
  intro l
  induction l with
  | nil =>
    intro q q' _
    trivial
  | cons e l ih =>
    intro q q' h
    rw [after] at h
    cases he : next q e with
    | none => rw [he] at h; cases h
    | some q1 =>
      rw [he] at h
      have hl := ih q1 q' h
      refine ⟨fun h1 => (hon q e q1 he h1).1, fun h1 => (hoff q e q1 he h1).1, ?_⟩
      cases h1 : on e with
      | true =>
        rw [(hon q e q1 he h1).2] at hl
        exact hl
      | false =>
        cases h2 : off e with
        | true =>
          rw [(hoff q e q1 he h2).2] at hl
          exact hl
        | false =>
          rw [hkeep q e q1 he h1 h2] at hl
          exact hl

end Mach.Lib.EventLog
