import Mathlib.Algebra.Group.Nat.Defs
import Mathlib.Logic.Function.Basic

/-!
# Word-addressed memory

A memory maps the address of an aligned word to the word. Arrays of words are
read and written at a stride `w`; an array that was written is read back, and
nothing outside it changes. Inside a word, bit fields are cut out and replaced by
arithmetic: a field that was set is read back, and its neighbours stay.

`walk` is the loop of a parser over such a memory: items are taken off at an
address that moves up until it reaches the end.
-/

namespace Mach.Lib.WordMem

open Function List Nat

abbrev Mem := Nat → Nat

/-- The `n` words at `a`, `a + w`, … -/
def readArray (m : Mem) (a w : Nat) : Nat → List Nat
  | 0 => []
  | n + 1 => m a :: readArray m (a + w) w n

def writeArray (m : Mem) (a w : Nat) : List Nat → Mem
  | [] => m
  | x :: xs => writeArray (update m a x) (a + w) w xs

/-- Two memories hold the same words from `lo` up to `hi`. -/
def EqOn (m m' : Mem) (lo hi : Nat) : Prop := ∀ a, lo ≤ a → a < hi → m a = m' a

theorem writeArray_below {w b : Nat} : ∀ (xs : List Nat) {m : Mem} {a : Nat}, b < a →
    writeArray m a w xs b = m b
  | [], _, _, _ => rfl
  | x :: xs, m, a, h => by
    rw [writeArray, writeArray_below xs (by omega), update_of_ne (by omega)]

theorem writeArray_above {w b : Nat} (hw : 0 < w) : ∀ (xs : List Nat) {m : Mem} {a : Nat},
    a + xs.length * w ≤ b → writeArray m a w xs b = m b
  | [], _, _, _ => rfl
  | x :: xs, m, a, h => by
    have hlen : (x :: xs).length * w = xs.length * w + w := by
      rw [length_cons, succ_mul]
    rw [writeArray, writeArray_above hw xs (by omega), update_of_ne (by omega)]

theorem read_writeArray {w : Nat} (hw : 0 < w) : ∀ (xs : List Nat) {m : Mem} {a : Nat},
    readArray (writeArray m a w xs) a w xs.length = xs
  | [], _, _ => rfl
  | x :: xs, m, a => by
    rw [length_cons, readArray, writeArray, read_writeArray hw xs,
      writeArray_below xs (by omega), update_self]

theorem readArray_congr {w : Nat} {m m' : Mem} : ∀ {n a : Nat},
    EqOn m m' a (a + n * w) → 0 < w → readArray m a w n = readArray m' a w n
  | 0, _, _, _ => rfl
  | n + 1, a, h, hw => by
    have hlen : (n + 1) * w = n * w + w := Nat.succ_mul n w
    have hhead : m a = m' a := h a (Nat.le_refl a) (by omega)
    have htail : readArray m (a + w) w n = readArray m' (a + w) w n :=
      readArray_congr (fun b hlo hhi => h b (by omega) (by omega)) hw
    rw [readArray, readArray, hhead, htail]

@[simp] theorem length_readArray (m : Mem) (w : Nat) : ∀ (n a : Nat), (readArray m a w n).length = n
  | 0, _ => rfl
  | n + 1, a => by rw [readArray, length_cons, length_readArray m w n]

/-! ## Bit fields -/

/-- The field of `n` bits from bit `lo` on. -/
def getField (w lo n : Nat) : Nat := w / 2 ^ lo % 2 ^ n

def setField (w lo n v : Nat) : Nat := w - getField w lo n * 2 ^ lo + v % 2 ^ n * 2 ^ lo

theorem field_split (w lo n : Nat) :
    w = w / 2 ^ (lo + n) * 2 ^ (lo + n) + getField w lo n * 2 ^ lo + w % 2 ^ lo := by
  have h1 : w = w / 2 ^ lo * 2 ^ lo + w % 2 ^ lo := (Nat.div_add_mod' w (2 ^ lo)).symm
  have h2 : w / 2 ^ lo = w / 2 ^ lo / 2 ^ n * 2 ^ n + w / 2 ^ lo % 2 ^ n :=
    (Nat.div_add_mod' (w / 2 ^ lo) (2 ^ n)).symm
  have h3 : w / 2 ^ lo / 2 ^ n = w / 2 ^ (lo + n) := by
    rw [Nat.div_div_eq_div_mul, ← Nat.pow_add]
  calc w = (w / 2 ^ lo / 2 ^ n * 2 ^ n + w / 2 ^ lo % 2 ^ n) * 2 ^ lo + w % 2 ^ lo := by
        rw [← h2]; exact h1
    _ = _ := by
        rw [h3, Nat.add_mul, Nat.mul_assoc, ← Nat.pow_add, Nat.add_comm n lo, getField]

theorem setField_eq (w lo n v : Nat) : setField w lo n v =
    w / 2 ^ (lo + n) * 2 ^ (lo + n) + v % 2 ^ n * 2 ^ lo + w % 2 ^ lo := by
  have h := field_split w lo n
  unfold setField
  omega

theorem setField_low (w lo n v : Nat) : setField w lo n v % 2 ^ lo = w % 2 ^ lo := by
  rw [setField_eq, Nat.pow_add, ← Nat.mul_assoc, Nat.mul_right_comm, ← Nat.add_mul,
    Nat.mul_add_mod_self_right, Nat.mod_mod]

theorem setField_div (w lo n v : Nat) :
    setField w lo n v / 2 ^ lo = w / 2 ^ (lo + n) * 2 ^ n + v % 2 ^ n := by
  have hpos : 0 < 2 ^ lo := Nat.two_pow_pos lo
  rw [setField_eq, Nat.pow_add, ← Nat.mul_assoc, Nat.mul_right_comm, ← Nat.add_mul,
    Nat.mul_comm _ (2 ^ lo), Nat.mul_add_div hpos, Nat.div_eq_of_lt (Nat.mod_lt w hpos),
    Nat.add_zero]

theorem getField_setField (w lo n v : Nat) : getField (setField w lo n v) lo n = v % 2 ^ n := by
  rw [getField, setField_div, mul_add_mod_self_right, mod_mod]

theorem getField_setField_above {lo n lo' : Nat} (h : lo + n ≤ lo') (w v n' : Nat) :
    getField (setField w lo n v) lo' n' = getField w lo' n' := by
  obtain ⟨k, rfl⟩ := Nat.exists_eq_add_of_le h
  have hpos : 0 < 2 ^ n := Nat.two_pow_pos n
  have hdiv : setField w lo n v / 2 ^ (lo + n) = w / 2 ^ (lo + n) := by
    rw [Nat.pow_add, ← Nat.div_div_eq_div_mul, setField_div, Nat.pow_add, Nat.mul_comm,
      Nat.mul_add_div hpos, Nat.div_eq_of_lt (Nat.mod_lt v hpos), Nat.add_zero]
  rw [getField, getField, Nat.pow_add, ← Nat.div_div_eq_div_mul, hdiv, Nat.div_div_eq_div_mul]

theorem getField_setField_below {lo lo' n' : Nat} (h : lo' + n' ≤ lo) (w n v : Nat) :
    getField (setField w lo n v) lo' n' = getField w lo' n' := by
  obtain ⟨k, rfl⟩ := Nat.exists_eq_add_of_le h
  -- a low field only depends on the word modulo the start of the upper one
  have hlow : ∀ x : Nat, getField x lo' n' = getField (x % 2 ^ (lo' + n' + k)) lo' n' := by
    intro x
    rw [getField, getField, Nat.pow_add 2 (lo' + n') k, Nat.pow_add 2 lo' n', Nat.mul_assoc,
      Nat.mod_mul_right_div_self, Nat.mod_mul_right_mod]
  rw [hlow, setField_low, ← hlow]

/-! ## Parser loops -/

section

variable {σ β ε : Type}

/-- Take items off from `a` until `eaddr` is reached. `fuel` bounds the turns;
`stuck` is returned when it does not suffice. -/
def walk (stuck : ε) (item : σ → Nat → Except ε (σ × β × Nat)) (eaddr : Nat) :
    Nat → σ → Nat → Except ε (σ × List β)
  | 0, s, a => if a < eaddr then .error stuck else .ok (s, [])
  | fuel + 1, s, a =>
    if a < eaddr then
      match item s a with
      | .error e => .error e
      | .ok (s₁, x, a₁) =>
        match walk stuck item eaddr fuel s₁ a₁ with
        | .error e => .error e
        | .ok (s₂, xs) => .ok (s₂, x :: xs)
    else .ok (s, [])

variable {stuck : ε} {item : σ → Nat → Except ε (σ × β × Nat)} {eaddr fuel a : Nat} {s : σ}

theorem walk_done (h : eaddr ≤ a) : walk stuck item eaddr fuel s a = .ok (s, []) := by
  cases fuel <;> exact if_neg (Nat.not_lt.mpr h)

theorem walk_turn {s1 : σ} {x : β} {a1 : Nat} (ha : a < eaddr) (h : item s a = .ok (s1, x, a1)) :
    walk stuck item eaddr (fuel + 1) s a = match walk stuck item eaddr fuel s1 a1 with
      | .error e => .error e
      | .ok (s2, xs) => .ok (s2, x :: xs) := by
  rw [walk, if_pos ha, h]

theorem walk_cases {s2 : σ} {ys : List β} (h : walk stuck item eaddr fuel s a = .ok (s2, ys)) :
    (eaddr ≤ a ∧ s2 = s ∧ ys = []) ∨
    ∃ k s1 x a1 xs, fuel = k + 1 ∧ a < eaddr ∧ item s a = .ok (s1, x, a1) ∧
      walk stuck item eaddr k s1 a1 = .ok (s2, xs) ∧ ys = x :: xs := by
  by_cases ha : a < eaddr
  · right
    cases fuel with
    | zero => simp [walk, ha] at h
    | succ k =>
      rw [walk, if_pos ha] at h
      split at h
      · cases h
      rename_i s1 x a1 hitem
      split at h
      · cases h
      rename_i s3 xs hrest
      cases h
      exact ⟨k, s1, x, a1, xs, rfl, ha, hitem, hrest, rfl⟩
  · rw [walk_done (Nat.not_lt.mp ha)] at h
    cases h
    exact .inl ⟨Nat.not_lt.mp ha, rfl, rfl⟩

theorem walk_ne_stuck (hmove : ∀ {s a s1 x a1}, item s a = .ok (s1, x, a1) → a < a1)
    (hitem : ∀ s a, item s a ≠ .error stuck) : ∀ {fuel : Nat} {s : σ} {a : Nat},
    eaddr - a ≤ fuel → walk stuck item eaddr fuel s a ≠ .error stuck
  | 0, s, a, hf => by
    rw [walk_done (by omega)]
    exact nofun
  | fuel + 1, s, a, hf => by
    by_cases ha : a < eaddr
    · cases h : item s a with
      | error e =>
        rw [walk, if_pos ha, h]
        intro he
        cases he
        exact hitem s a h
      | ok r =>
        obtain ⟨s1, x, a1⟩ := r
        have hlt := hmove h
        have hrest : walk stuck item eaddr fuel s1 a1 ≠ .error stuck :=
          walk_ne_stuck hmove hitem (by omega)
        rw [walk_turn ha h]
        split
        next e he => rw [← he]; exact hrest
        next => exact nofun
    · rw [walk_done (by omega)]
      exact nofun

end

end Mach.Lib.WordMem
