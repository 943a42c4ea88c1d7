/-!
# Computations that can fail

What a computation that has gone through says of its parts.
-/

namespace Mach.Lib

variable {ε α β : Type}

theorem of_ite_error {c : Prop} [Decidable c] {e : ε} {r : Except ε α} {x : α}
    (h : (if c then .error e else r) = .ok x) : ¬ c ∧ r = .ok x := by
  split at h
  · cases h
  next hc => exact ⟨hc, h⟩

theorem of_ite_ok {c : Prop} [Decidable c] {e : ε} {r : Except ε α} {x : α}
    (h : (if c then r else .error e) = .ok x) : c ∧ r = .ok x := by
  split at h
  next hc => exact ⟨hc, h⟩
  · cases h

theorem bind_eq_ok {r : Except ε α} {g : α → Except ε β} {y : β} (h : r >>= g = .ok y) :
    ∃ x, r = .ok x ∧ g x = .ok y := by
  cases r with
  | error e => cases h
  | ok x => exact ⟨x, rfl, h⟩

theorem map_eq_ok {r : Except ε α} {g : α → β} {y : β} (h : r.map g = .ok y) :
    ∃ x, r = .ok x ∧ g x = y := by
  cases r with
  | error e => cases h
  | ok x =>
    cases h
    exact ⟨x, rfl, rfl⟩

end Mach.Lib
