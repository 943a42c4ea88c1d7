import Mathlib.Logic.Function.Basic

/-!
# Layers that show what is below them

A layer has some places of its own and may lie over another layer, at an offset; a place
that it does not have itself is looked up there. At the bottom everything else is blank.
`Sees` is what one finds at a place. The lemmas say which changes of the layers nobody
notices: giving a layer a place of its own with what is seen there, changing a place that
is covered in every layer above, putting an empty layer between two others, and merging a
layer with the one below or going past it.
-/

namespace Mach.Lib.Overlay

open Function Option

structure Layer (V : Type) where
  get : Nat → Option V
  size : Nat
  below : Option Nat
  offset : Nat

abbrev Layers (V : Type) := Nat → Option (Layer V)

variable {V : Type} {L L' : Layers V} {z : V}

/-- What is found at a place of a layer. -/
inductive Sees (L : Layers V) (z : V) : Nat → Nat → V → Prop
  | here {i o : Nat} {l : Layer V} {v : V} : L i = some l → l.get o = some v → Sees L z i o v
  | under {i j o : Nat} {l : Layer V} {v : V} : L i = some l → l.get o = none → l.below = some j →
      Sees L z j (o + l.offset) v → Sees L z i o v
  | bottom {i o : Nat} {l : Layer V} : L i = some l → l.get o = none → l.below = none → Sees L z i o z

/-- The layers below are there, and one comes to an end: `rank` counts down. -/
structure Ranked (L : Layers V) (rank : Nat → Nat) : Prop where
  live : ∀ {i l j}, L i = some l → l.below = some j → (L j).isSome
  lt : ∀ {i l j}, L i = some l → l.below = some j → rank j < rank i

/-- A layer lies inside the one below it. -/
def Windowed (L : Layers V) : Prop :=
  ∀ {i l j m}, L i = some l → l.below = some j → L j = some m → l.size + l.offset ≤ m.size

section

variable {i o : Nat} {v v' : V}

theorem Sees.unique (h : Sees L z i o v) : Sees L z i o v' → v = v' := by
  induction h with
  | here hi hget =>
    intro h'
    cases h' with
    | here hi' hget' =>
      cases hi.symm.trans hi'
      exact Option.some.inj (hget.symm.trans hget')
    | under hi' hget' | bottom hi' hget' =>
      cases hi.symm.trans hi'
      cases hget.symm.trans hget'
  | under hi hget hbelow _ ih =>
    intro h'
    cases h' with
    | here hi' hget' =>
      cases hi.symm.trans hi'
      cases hget.symm.trans hget'
    | under hi' _ hbelow' h' =>
      cases hi.symm.trans hi'
      cases hbelow.symm.trans hbelow'
      exact ih h'
    | bottom hi' _ hbelow' =>
      cases hi.symm.trans hi'
      cases hbelow.symm.trans hbelow'
  | bottom hi hget hbelow =>
    intro h'
    cases h' with
    | here hi' hget' =>
      cases hi.symm.trans hi'
      cases hget.symm.trans hget'
    | under hi' _ hbelow' _ =>
      cases hi.symm.trans hi'
      cases hbelow.symm.trans hbelow'
    | bottom => rfl

/-- Going down from `i`, at most as often as the rank says. -/
def look (L : Layers V) : Nat → Nat → Nat → Option (Nat × V)
  | 0, _, _ => none
  | k + 1, i, o =>
    match L i with
    | none => none
    | some l =>
      match l.get o with
      | some v => some (i, v)
      | none =>
        match l.below with
        | none => none
        | some j => look L k j (o + l.offset)

variable {rank : Nat → Nat}

theorem sees_look (hr : Ranked L rank) : ∀ {k i o : Nat}, rank i < k → (L i).isSome →
    Sees L z i o (((look L k i o).map Prod.snd).getD z)
  | 0, i, o, hk, _ => absurd hk (Nat.not_lt_zero _)
  | k + 1, i, o, hk, hlive => by
    obtain ⟨l, hl⟩ := isSome_iff_exists.mp hlive
    rw [look, hl]
    dsimp only
    cases hget : l.get o with
    | some v => exact .here hl hget
    | none =>
      cases hbelow : l.below with
      | none => exact .bottom hl hget hbelow
      | some j =>
        have hlt := hr.lt hl hbelow
        exact .under hl hget hbelow (sees_look hr (by omega) (hr.live hl hbelow))

theorem sees_of_look : ∀ {k i o j : Nat}, look L k i o = some (j, v) → Sees L z i o v
  | 0, i, o, j, h => by cases h
  | k + 1, i, o, j, h => by
    rw [look] at h
    split at h
    · cases h
    rename_i l hl
    split at h
    next v' hget =>
      cases h
      exact .here hl hget
    next hget =>
      split at h
      next => cases h
      next j' hbelow => exact .under hl hget hbelow (sees_of_look h)

theorem look_rank (hr : Ranked L rank) : ∀ {k i o j : Nat}, look L k i o = some (j, v) →
    rank j ≤ rank i
  | 0, i, o, j, h => by cases h
  | k + 1, i, o, j, h => by
    rw [look] at h
    split at h
    · cases h
    rename_i l hl
    split at h
    next =>
      cases h
      exact Nat.le_refl _
    next =>
      split at h
      · cases h
      rename_i j' hbelow
      have hlt := hr.lt hl hbelow
      have hle := look_rank hr h
      omega

theorem look_eq_some (hr : Ranked L rank) {k j : Nat} {l : Layer V} (hl : L i = some l)
    (h : look L k i o = some (j, v)) :
    Sees L z i o v ∧ ((j = i ∧ l.get o = some v) ∨ (j ≠ i ∧ l.get o = none)) := by
  cases k with
  | zero => cases h
  | succ k =>
    rw [look, hl] at h
    dsimp only at h
    split at h
    next v' hget =>
      cases h
      exact ⟨.here hl hget, .inl ⟨rfl, hget⟩⟩
    next hget =>
      split at h
      · cases h
      rename_i j' hbelow
      have hlt := hr.lt hl hbelow
      have hle := look_rank hr h
      have hne : j ≠ i := by
        rintro rfl
        omega
      exact ⟨.under hl hget hbelow (sees_of_look h), .inr ⟨hne, hget⟩⟩

theorem look_eq_none {k : Nat} {l : Layer V} (hl : L i = some l) (h : look L (k + 1) i o = none) :
    l.get o = none := by
  rw [look, hl] at h
  dsimp only at h
  split at h
  next => cases h
  next hget => exact hget

end

/-! ## Changes that nobody notices -/

section

variable {i o : Nat} {v : V} {l l' : Layer V} {j x : Nat} {w : V}

section

variable (hl : L i = some l) (hl' : L' i = some l') (hget' : l'.get = update l.get o (some v))
  (hbelow : l'.below = l.below) (hoffset : l'.offset = l.offset) (hother : ∀ j, j ≠ i → L' j = L j)

include hl hl' hget' hbelow hoffset hother

theorem layer_kept ⦃j x : Nat⦄ ⦃m : Layer V⦄ (hj : L j = some m) (hne : j = i → x ≠ o) :
    ∃ m', L' j = some m' ∧ m'.get x = m.get x ∧ m'.below = m.below ∧ m'.offset = m.offset := by
  by_cases hji : j = i
  · subst hji
    cases hl.symm.trans hj
    exact ⟨l', hl', by rw [hget', update_of_ne (hne rfl)], hbelow, hoffset⟩
  · exact ⟨m, (hother j hji).trans hj, rfl, rfl, rfl⟩

theorem Sees.fill (hsees : Sees L z i o v) (h : Sees L z j x w) : Sees L' z j x w := by
  -- at the new place there is what was seen there
  have hself : ∀ {j x w}, Sees L z j x w → j = i ∧ x = o → Sees L' z j x w := by
    rintro j x w h ⟨rfl, rfl⟩
    cases h.unique hsees
    exact .here hl' (by rw [hget', update_self])
  have hkept := layer_kept hl hl' hget' hbelow hoffset hother
  induction h with
  | @here j x m w hj hm =>
    by_cases hjx : j = i ∧ x = o
    · exact hself (.here hj hm) hjx
    · obtain ⟨m', hj', hget, _⟩ := hkept hj (not_and.mp hjx)
      exact .here hj' (hget.trans hm)
  | @under j k x m w hj hm hk hrest ih =>
    by_cases hjx : j = i ∧ x = o
    · exact hself (.under hj hm hk hrest) hjx
    · obtain ⟨m', hj', hget, hb, ho⟩ := hkept hj (not_and.mp hjx)
      exact .under hj' (hget.trans hm) (hb.trans hk) (ho ▸ ih)
  | @bottom j x m hj hm hk =>
    by_cases hjx : j = i ∧ x = o
    · exact hself (.bottom hj hm hk) hjx
    · obtain ⟨m', hj', hget, hb, _⟩ := hkept hj (not_and.mp hjx)
      exact .bottom hj' (hget.trans hm) (hb.trans hk)

theorem Sees.write (hcover : ∀ j m x, L j = some m → m.below = some i → x + m.offset = o → m.get x ≠ none)
    (h : Sees L z j x w) : (j = i → x ≠ o) → Sees L' z j x w := by
  have hkept := layer_kept hl hl' hget' hbelow hoffset hother
  induction h with
  | @here j x m w hj hm =>
    intro hne
    obtain ⟨m', hj', hget, _⟩ := hkept hj hne
    exact .here hj' (hget.trans hm)
  | @under j k x m w hj hm hk hrest ih =>
    intro hne
    have hrest' := ih fun hki hx => hcover j m x hj (hki ▸ hk) hx hm
    obtain ⟨m', hj', hget, hb, ho⟩ := hkept hj hne
    exact .under hj' (hget.trans hm) (hb.trans hk) (ho ▸ hrest')
  | @bottom j x m hj hm hk =>
    intro hne
    obtain ⟨m', hj', hget, hb, _⟩ := hkept hj hne
    exact .bottom hj' (hget.trans hm) (hb.trans hk)

end

theorem Sees.insert {n : Nat} (hn' : L' n = some l') (hempty : ∀ o, l'.get o = none)
    (hbelow : l'.below = some i) (hoffset : l'.offset = 0)
    (hother : ∀ j m, L j = some m → ∃ m', L' j = some m' ∧ m'.get = m.get ∧ m'.offset = m.offset ∧
      (m'.below = m.below ∨ m.below = some i ∧ m'.below = some n))
    (h : Sees L z j x w) : Sees L' z j x w := by
  induction h with
  | @here j x m w hj hm =>
    obtain ⟨m', hj', hget, _⟩ := hother j m hj
    exact .here hj' (by rw [hget, hm])
  | @under j k x m w hj hm hk hrest ih =>
    obtain ⟨m', hj', hget, hoff, hlink⟩ := hother j m hj
    have hm' : m'.get x = none := by rw [hget, hm]
    rcases hlink with hsame | ⟨hi, hnew⟩
    · exact .under hj' hm' (hsame.trans hk) (hoff ▸ ih)
    · cases hk.symm.trans hi
      refine .under hj' hm' hnew (.under hn' (hempty _) hbelow ?_)
      rw [hoffset, hoff]
      exact ih
  | @bottom j x m hj hm hk =>
    obtain ⟨m', hj', hget, _, hlink⟩ := hother j m hj
    refine .bottom hj' (by rw [hget, hm]) ?_
    rcases hlink with hsame | ⟨hi, _⟩
    · exact hsame.trans hk
    · cases hk.symm.trans hi

theorem Sees.mono (hmore : ∀ j m, L j = some m → L' j = some m) (h : Sees L z j x w) :
    Sees L' z j x w := by
  induction h with
  | here hj hm => exact .here (hmore _ _ hj) hm
  | under hj hm hk _ ih => exact .under (hmore _ _ hj) hm hk ih
  | bottom hj hm hk => exact .bottom (hmore _ _ hj) hm hk

theorem Sees.past {rank : Nat → Nat} {b : Nat} {m : Layer V} (hr : Ranked L rank) (hw : Windowed L)
    (hl : L i = some l) (hb : l.below = some b) (hm : L b = some m) (hl' : L' i = some l')
    (hbelow : l'.below = m.below) (hoffset : l'.offset = l.offset + m.offset)
    (hget : ∀ o < l.size, l'.get o = (l.get o).or (m.get (o + l.offset)))
    (hother : ∀ j, j ≠ i → j ≠ b → L' j = L j)
    (hgone : (L' b = none ∧ ∀ j n, L j = some n → n.below = some b → j = i) ∨ L' b = L b)
    (h : Sees L z j x w) : ∀ n, L j = some n → x < n.size → ((L' j).isSome → Sees L' z j x w) ∧
      (j = b → m.get x = none → (m.below = none ∧ w = z) ∨
        ∃ r, m.below = some r ∧ Sees L' z r (x + m.offset) w) := by
  have hib : b ≠ i := by
    rintro rfl
    exact Nat.lt_irrefl _ (hr.lt hl hb)
  -- what is directly below another layer than `i` is still there
  have hlive : ∀ {j k n}, L j = some n → n.below = some k → j ≠ i → (L' k).isSome := by
    intro j k n hj hk hji
    by_cases hki : k = i
    · rw [hki, hl']
      rfl
    · by_cases hkb : k = b
      · subst hkb
        rcases hgone with ⟨_, honly⟩ | hsame
        · exact absurd (honly j n hj hk) hji
        · rw [hsame]
          exact hr.live hj hk
      · rw [hother k hki hkb]
        exact hr.live hj hk
  have hkept : ∀ {j}, j ≠ i → (L' j).isSome → L' j = L j := by
    intro j hji hsome
    by_cases hjb : j = b
    · subst hjb
      rcases hgone with ⟨hnone, _⟩ | hsame
      · rw [hnone] at hsome
        cases hsome
      · exact hsame
    · exact hother j hji hjb
  induction h with
  | @here j x n w hj hn =>
    intro n' hn' hx
    cases hj.symm.trans hn'
    refine ⟨fun hsome => ?_, fun hjb hnone => ?_⟩
    · by_cases hji : j = i
      · subst hji
        cases hl.symm.trans hj
        exact .here hl' (by rw [hget x hx, hn, some_or])
      · exact .here ((hkept hji hsome).trans hj) hn
    · subst hjb
      cases hm.symm.trans hj
      cases hnone.symm.trans hn
  | @under j k x n w hj hn hk hrest ih =>
    intro n' hn' hx
    cases hj.symm.trans hn'
    obtain ⟨p, hp⟩ := isSome_iff_exists.mp (hr.live hj hk)
    have hwin := hw hj hk hp
    obtain ⟨hsees, hbelow'⟩ := ih p hp (by omega)
    refine ⟨fun hsome => ?_, fun hjb _ => ?_⟩
    · by_cases hji : j = i
      · subst hji
        cases hl.symm.trans hj
        cases hb.symm.trans hk
        cases hm.symm.trans hp
        -- what was seen through `b` is now in the layer itself, or further below
        cases hmget : m.get (x + l.offset) with
        | some v' =>
          cases (Sees.here hm hmget).unique hrest
          exact .here hl' (by rw [hget x hx, hn, hmget, none_or])
        | none =>
          have hget' : l'.get x = none := by rw [hget x hx, hn, hmget, none_or]
          rcases hbelow' rfl hmget with ⟨hnone, rfl⟩ | ⟨r, hr', hsees'⟩
          · exact .bottom hl' hget' (hbelow.trans hnone)
          · refine .under hl' hget' (hbelow.trans hr') ?_
            rw [hoffset, ← Nat.add_assoc]
            exact hsees'
      · exact .under ((hkept hji hsome).trans hj) hn hk (hsees (hlive hj hk hji))
    · subst hjb
      cases hm.symm.trans hj
      exact .inr ⟨k, hk, hsees (hlive hm hk hib)⟩
  | @bottom j x n hj hn hk =>
    intro n' hn' hx
    cases hj.symm.trans hn'
    refine ⟨fun hsome => ?_, fun hjb _ => ?_⟩
    · by_cases hji : j = i
      · subst hji
        cases hl.symm.trans hj
        cases hb.symm.trans hk
      · exact .bottom ((hkept hji hsome).trans hj) hn hk
    · subst hjb
      cases hm.symm.trans hj
      exact .inl ⟨hk, rfl⟩

end

end Mach.Lib.Overlay
