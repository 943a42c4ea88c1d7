import Mathlib.Data.List.Basic
import Mathlib.Tactic.Ring

/-!
# Byte-addressed memory

A memory maps addresses to bytes. A block of bytes that was written is read back, and
nothing outside it changes. Numbers are stored with the lowest byte first.
-/

namespace Mach.Lib.ByteMem

open List Nat

abbrev Mem := Nat → UInt8

/-- The `n` bytes at `a`. -/
def readBytes (m : Mem) (a n : Nat) : List UInt8 := (List.range n).map fun i => m (a + i)

def writeBytes (m : Mem) (a : Nat) (l : List UInt8) : Mem :=
  fun b => if a ≤ b then (l[b - a]?).getD (m b) else m b

/-- Two memories have the same bytes from `lo` up to `hi`. -/
def EqOn (m m' : Mem) (lo hi : Nat) : Prop := ∀ a, lo ≤ a → a < hi → m a = m' a

section

variable {m m' m'' : Mem} {a b n lo hi : Nat} {l : List UInt8}

@[simp] theorem length_readBytes (m : Mem) (a n : Nat) : (readBytes m a n).length = n := by
  rw [readBytes, length_map, length_range]

theorem writeBytes_below (h : b < a) : writeBytes m a l b = m b := if_neg (by omega)

theorem writeBytes_above (h : a + l.length ≤ b) : writeBytes m a l b = m b := by
  rw [writeBytes, if_pos (by omega), List.getElem?_eq_none (by omega)]
  rfl

theorem writeBytes_nil (m : Mem) (a : Nat) : writeBytes m a [] = m := by
  funext b
  unfold writeBytes
  split <;> rfl

theorem writeBytes_append (m : Mem) (a : Nat) (l l' : List UInt8) :
    writeBytes m a (l ++ l') = writeBytes (writeBytes m a l) (a + l.length) l' := by
  funext b
  by_cases hb : b < a + l.length
  · rw [writeBytes_below hb, writeBytes, writeBytes]
    split
    · rw [List.getElem?_append_left (by omega)]
    · rfl
  · rw [writeBytes, writeBytes, if_pos (by omega), if_pos (by omega), writeBytes_above (by omega),
      List.getElem?_append_right (by omega), Nat.sub_sub]

theorem readBytes_eq (h : EqOn m m' a (a + n)) : readBytes m a n = readBytes m' a n := by
  refine map_congr_left fun i hi => h _ (by omega) ?_
  have := mem_range.mp hi
  omega

theorem readBytes_writeBytes (m : Mem) (a : Nat) (l : List UInt8) :
    readBytes (writeBytes m a l) a l.length = l := by
  refine ext_getElem (by simp) fun i hi hi' => ?_
  rw [length_readBytes] at hi
  simp [readBytes, writeBytes, hi]

theorem readBytes_writeBytes_readBytes (m m' : Mem) (a b n : Nat) :
    readBytes (writeBytes m a (readBytes m' b n)) a n = readBytes m' b n := by
  have := readBytes_writeBytes m a (readBytes m' b n)
  rwa [length_readBytes] at this

theorem EqOn.refl (m : Mem) (lo hi : Nat) : EqOn m m lo hi := fun _ _ _ => rfl

theorem EqOn.trans (h : EqOn m m' lo hi) (h' : EqOn m' m'' lo hi) : EqOn m m'' lo hi :=
  fun a h1 h2 => (h a h1 h2).trans (h' a h1 h2)

theorem EqOn.mono {lo' hi' : Nat} (h : EqOn m m' lo hi) (hlo : lo ≤ lo' := by omega)
    (hhi : hi' ≤ hi := by omega) :
    EqOn m m' lo' hi' := fun a h1 h2 => h a (by omega) (by omega)

theorem eqOn_writeBytes (m : Mem) (a : Nat) (l : List UInt8) (lo : Nat) :
    EqOn (writeBytes m a l) m lo a := fun _ _ h => writeBytes_below h

theorem readBytes_add (m : Mem) (a n k : Nat) :
    readBytes m a (n + k) = readBytes m a n ++ readBytes m (a + n) k := by
  rw [readBytes, range_add, map_append, map_map]
  simp only [readBytes]
  congr 1
  refine map_congr_left fun i _ => ?_
  rw [Function.comp_apply, add_assoc]

end

/-! ## Numbers -/

/-- The lowest `n` bytes of a number. -/
def leBytes : Nat → Nat → List UInt8
  | 0, _ => []
  | n + 1, v => UInt8.ofNat v :: leBytes n (v / 256)

def leNat : List UInt8 → Nat
  | [] => 0
  | b :: l => b.toNat + 256 * leNat l

@[simp] theorem length_leBytes : ∀ n v, (leBytes n v).length = n
  | 0, _ => rfl
  | n + 1, v => by rw [leBytes, length_cons, length_leBytes n]

theorem leNat_leBytes : ∀ n v, leNat (leBytes n v) = v % 256 ^ n
  | 0, v => by rw [leBytes, leNat, pow_zero, mod_one]
  | n + 1, v => by
    have hbyte : (UInt8.ofNat v).toNat = v % 256 := UInt8.toNat_ofNat'
    rw [leBytes, leNat, leNat_leBytes n, pow_succ, mul_comm (256 ^ n), mod_mul, hbyte]

theorem leNat_lt : ∀ l : List UInt8, leNat l < 256 ^ l.length
  | [] => by decide
  | b :: l => by
    have ih := leNat_lt l
    have hb : b.toNat < 256 := b.toNat_lt
    rw [leNat, length_cons]
    omega

theorem leNat_append : ∀ l l' : List UInt8, leNat (l ++ l') = leNat l + 256 ^ l.length * leNat l'
  | [], l' => by simp [leNat]
  | b :: l, l' => by
    rw [cons_append, leNat, leNat, leNat_append l, length_cons]
    ring

theorem leBytes_leNat : ∀ l : List UInt8, leBytes l.length (leNat l) = l
  | [] => rfl
  | b :: l => by
    have hb : b.toNat < 256 := b.toNat_lt
    rw [length_cons, leBytes, leNat]
    congr 1
    · refine UInt8.toNat_inj.mp ?_
      rw [UInt8.toNat_ofNat']
      omega
    · rw [show (b.toNat + 256 * leNat l) / 256 = leNat l by omega, leBytes_leNat l]

/-- The number of `n` bytes at `a`. -/
def readLe (m : Mem) (a n : Nat) : Nat := leNat (readBytes m a n)

theorem readLe_lt (m : Mem) (a n : Nat) : readLe m a n < 256 ^ n := by
  have := leNat_lt (readBytes m a n)
  rwa [length_readBytes] at this

theorem leBytes_readLe (m : Mem) (a n : Nat) : leBytes n (readLe m a n) = readBytes m a n := by
  have := leBytes_leNat (readBytes m a n)
  rwa [length_readBytes] at this

def writeLe (m : Mem) (a n v : Nat) : Mem := writeBytes m a (leBytes n v)

theorem eqOn_writeLe (m : Mem) (a n v lo : Nat) : EqOn (writeLe m a n v) m lo a :=
  eqOn_writeBytes m a (leBytes n v) lo

theorem readLe_writeLe (m : Mem) (a n v : Nat) : readLe (writeLe m a n v) a n = v % 256 ^ n := by
  have := readBytes_writeBytes m a (leBytes n v)
  rw [length_leBytes] at this
  rw [readLe, writeLe, this, leNat_leBytes]

theorem readLe_writeLe_of_lt {n v : Nat} (m : Mem) (a : Nat) (h : v < 256 ^ n) :
    readLe (writeLe m a n v) a n = v :=
  (readLe_writeLe m a n v).trans (mod_eq_of_lt h)

theorem readLe_eq {m m' : Mem} {a n : Nat} (h : EqOn m m' a (a + n)) : readLe m a n = readLe m' a n := by
  rw [readLe, readLe, readBytes_eq h]

end Mach.Lib.ByteMem
