import Mathlib.Logic.Function.Basic

/-!
# Guarded runs of a labelled transition system

A system is an initial predicate and a partial step function on labelled
actions; an action that is not enabled in a state has no successor. `Reach ok`
collects the states of the runs *every* step of which meets `ok` — with
`ok = anyStep` these are all the reachable states.

Every safety theorem of the development is an application of `Reach.inv`: the
invariant holds initially and one step preserves it. `Reach.run` turns an
executable run (a list of actions folded by `run`) into a membership proof, so
that a concrete schedule is a witness by evaluation.
-/

namespace Mach.Lib

/-- A labelled transition system with a partial, deterministic step. -/
structure Lts (σ α : Type) where
  init : σ → Prop
  step : σ → α → Option σ

variable {σ α : Type}

@[elab_as_elim]
theorem update_cases {ι β : Type} [DecidableEq ι] {f : ι → β} {i : ι} {b : β}
    {motive : ι → β → Prop} (self : motive i b) (other : ∀ j ≠ i, motive j (f j)) (j : ι) :
    motive j (Function.update f i b j) :=
  (Function.forall_update_iff f motive).mpr ⟨self, other⟩ j

/-- The guard that admits every step. -/
def anyStep (_ : σ) (_ : α) : Prop := True

/-- The states reached by runs whose steps all meet `ok`. -/
inductive Lts.Reach (M : Lts σ α) (ok : σ → α → Prop) : σ → Prop
  | start {s : σ} : M.init s → M.Reach ok s
  | next {s s' : σ} {a : α} :
      M.Reach ok s → ok s a → M.step s a = some s' → M.Reach ok s'

variable {M : Lts σ α} {ok : σ → α → Prop}

theorem Lts.Reach.inv {I : σ → Prop} (hinit : ∀ s, M.init s → I s)
    (hstep : ∀ s a s', I s → ok s a → M.step s a = some s' → I s') :
    ∀ {s : σ}, M.Reach ok s → I s := by
  intro s h
  induction h with
  | start h0 => exact hinit _ h0
  | next _ hok hs ih => exact hstep _ _ _ ih hok hs

theorem Lts.Reach.any {s : σ} (h : M.Reach ok s) : M.Reach anyStep s := by
  induction h with
  | start h0 => exact .start h0
  | next _ _ hs ih => exact .next ih trivial hs

/-- A whole run, as the fold of the step function over its actions. -/
def Lts.run (M : Lts σ α) : σ → List α → Option σ
  | s, [] => some s
  | s, a :: as =>
    match M.step s a with
    | none => none
    | some s' => M.run s' as

/-- `okRun` holds when every step of the run meets the guard. -/
def Lts.okRun (M : Lts σ α) (ok : σ → α → Prop) : σ → List α → Prop
  | _, [] => True
  | s, a :: as => ok s a ∧
    match M.step s a with
    | none => True
    | some s' => M.okRun ok s' as

instance Lts.decidableOkRun (M : Lts σ α) {ok : σ → α → Prop} [∀ s a, Decidable (ok s a)] :
    ∀ (s : σ) (as : List α), Decidable (M.okRun ok s as)
  | _, [] => .isTrue trivial
  | s, a :: as =>
    have : Decidable (match M.step s a with
        | none => True
        | some s' => M.okRun ok s' as) :=
      match M.step s a with
      | none => .isTrue trivial
      | some s' => M.decidableOkRun s' as
    inferInstanceAs (Decidable (ok s a ∧ _))

theorem Lts.Reach.run : ∀ (as : List α) {s s' : σ}, M.Reach ok s → M.okRun ok s as →
      M.run s as = some s' → M.Reach ok s'
  | [], s, s', hr, _, h => by
    simp only [Lts.run, Option.some.injEq] at h
    exact h ▸ hr
  | a :: as, s, s', hr, hok, h => by
    simp only [Lts.run] at h
    simp only [Lts.okRun] at hok
    cases hs : M.step s a with
    | none => rw [hs] at h; simp at h
    | some s1 =>
      rw [hs] at h hok
      exact Lts.Reach.run as (.next hr hok.1 hs) hok.2 h

theorem Lts.okRun_of_forall (M : Lts σ α) :
    ∀ (as : List α) (s : σ), (∀ a ∈ as, ∀ s, ok s a) → M.okRun ok s as
  | [], _, _ => trivial
  | a :: as, s, h => by
    refine ⟨h a (List.mem_cons_self ..) s, ?_⟩
    cases M.step s a with
    | none => trivial
    | some s' => exact Lts.okRun_of_forall M as s' fun b hb => h b (List.mem_cons_of_mem a hb)

theorem Lts.okRun_any (M : Lts σ α) (as : List α) (s : σ) : M.okRun anyStep s as :=
  M.okRun_of_forall as s fun _ _ _ => trivial

theorem Lts.reach_get {s : σ} {as : List α} (h0 : M.init s) (h : (M.run s as).isSome) :
    M.Reach anyStep ((M.run s as).get h) :=
  .run as (.start h0) (M.okRun_any as s) (Option.some_get h).symm

end Mach.Lib
