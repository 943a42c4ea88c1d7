import Mach.Lib.Fallible
import Mach.Ipc.KmsgBody

/-!
# The loops over a message body agree

`ipc_kmsg_copyin_body` overwrites the descriptors and the data as it goes, but
never what it already passed, so the body it leaves behind can be described item
by item (`Settled`). On such a body copyout finds the same items: it computes the
length of an item with the same 64-bit product. The cleaning loop multiplies in
32 bits. It finds the same items, and releases what copyin acquired, exactly when
that makes no difference for any descriptor of the body the user sent.
-/

namespace Mach.Ipc.Kmsg

open Lib Lib.WordMem Function Nat Abi

variable {abi : Abi}

theorem word_pos (abi : Abi) : 0 < abi.word := by cases abi <;> decide

theorem le_align (abi : Abi) (x : Nat) : x ≤ abi.align x := by
  cases abi <;> simp only [align, word] <;> omega

theorem afterType_eq (abi : Abi) (t : MsgType) (a : Nat) :
    afterType abi t a = a + if t.longform then abi.longSize else abi.shortSize := by
  cases abi <;> cases h : t.longform <;> simp [afterType, h, word, longSize, shortSize]

theorem lt_afterType (abi : Abi) (t : MsgType) (a : Nat) : a < afterType abi t a := by
  rw [afterType_eq]
  cases abi <;> split <;> simp [longSize, shortSize]

/-! ## Reading a descriptor -/

variable {m : Mem} {a n c eaddr a₁ : Nat} {t : MsgType} {b b₁ : Body} {x : Handled} {w : World}

theorem readType_congr {m' : Mem} (h : EqOn m m' a (afterType abi (readType abi m a) a)) :
    readType abi m' a = readType abi m a := by
  have hfirst : m a = m' a := h a (Nat.le_refl a) (lt_afterType ..)
  rw [afterType_eq] at h
  cases abi with
  | lp64 => simp only [readType, hfirst]
  | i386 =>
    by_cases hl : getField (m a) 29 1 = 1
    · have hsize : (if (readType .i386 m a).longform then longSize .i386
          else shortSize .i386) = 12 := by simp [readType, hl, longSize]
      have h4 : m (a + 4) = m' (a + 4) := h (a + 4) (by omega) (by omega)
      have h8 : m (a + 8) = m' (a + 8) := h (a + 8) (by omega) (by omega)
      simp only [readType, hfirst, h4, h8]
    · rw [hfirst] at hl
      simp [readType, hfirst, hl]

structure SameData (t t' : MsgType) : Prop where
  number : t'.number = t.number
  isInline : t'.isInline = t.isInline
  longform : t'.longform = t.longform

theorem readType_setName (hn : n < 2 ^ 8) : SameData (readType abi m a)
      (readType abi (setName abi m a (readType abi m a).longform n) a) ∧
    (readType abi (setName abi m a (readType abi m a).longform n) a).name = n ∧
    (readType abi (setName abi m a (readType abi m a).longform n) a).size =
      (readType abi m a).size := by
  have habove : ∀ w lo k, 8 ≤ lo → getField (setField w 0 8 n) lo k = getField w lo k :=
    fun w lo k h => getField_setField_above (by omega) w n k
  have habove' : ∀ w lo k, 16 ≤ lo → getField (setField w 0 16 n) lo k = getField w lo k :=
    fun w lo k h => getField_setField_above (by omega) w n k
  have hn8 : n % 256 = n := mod_eq_of_lt hn
  cases abi with
  | lp64 =>
    refine ⟨⟨?_, ?_, ?_⟩, ?_, ?_⟩ <;>
      simp [setName, readType, habove, getField_setField, hn8]
  | i386 =>
    by_cases hl : getField (m a) 29 1 = 1
    · have hn' : n % 65536 = n := mod_eq_of_lt (by omega)
      refine ⟨⟨?_, ?_, ?_⟩, ?_, ?_⟩ <;>
        simp [setName, readType, hl, habove', getField_setField, hn']
    · refine ⟨⟨?_, ?_, ?_⟩, ?_, ?_⟩ <;>
        simp [setName, readType, hl, habove, getField_setField, hn8]

theorem readType_setSize (m : Mem) (a : Nat) (lf : Bool) :
    SameData (readType .lp64 m a) (readType .lp64 (setSize .lp64 m a lf 64) a) ∧
    (readType .lp64 (setSize .lp64 m a lf 64) a).name = (readType .lp64 m a).name ∧
    (readType .lp64 (setSize .lp64 m a lf 64) a).size = 64 := by
  have habove : ∀ w lo k, 24 ≤ lo → getField (setField w 8 16 64) lo k = getField w lo k :=
    fun w lo k h => getField_setField_above (by omega) w 64 k
  have hbelow : ∀ w k, k ≤ 8 → getField (setField w 8 16 64) 0 k = getField w 0 k :=
    fun w k h => getField_setField_below (by omega) w 16 64
  refine ⟨⟨?_, ?_, ?_⟩, ?_, ?_⟩ <;>
    simp [setSize, readType, habove, hbelow, getField_setField]

/-! ## The setters stay inside their descriptor -/

theorem setDeallocate_outside {f : Bool} (hc : c ≠ a) : setDeallocate abi m a f c = m c := by
  unfold setDeallocate
  split <;> exact update_of_ne hc ..

section

variable (hc : c < a ∨ afterType abi t a ≤ c)
include hc

theorem setType_outside : setName abi m a t.longform n c = m c ∧ setSize abi m a t.longform n c = m c := by
  rw [afterType_eq] at hc
  cases abi <;> cases ht : t.longform <;>
    simp only [ht, longSize, shortSize, if_true, Bool.false_eq_true, if_false] at hc <;>
    exact ⟨update_of_ne (by omega) .., update_of_ne (by omega) ..⟩

theorem widenSize_outside : widenSize abi m a t c = m c := by
  unfold widenSize
  split
  · exact (setType_outside hc).2
  · rfl

end

/-! ## The port loops -/

theorem copyinPorts_length {right : Nat → Nat → Option Nat} : ∀ {ws : List Nat} {i : Nat}
    {objects : List Nat}, copyinPorts abi right i ws = some objects →
    objects.length = ws.length
  | [], _, _, h => by
    simp only [copyinPorts, Option.some.injEq] at h
    rw [← h]
  | w :: ws, i, objects, h => by
    -- either way the head yields one object and the rest is the loop on the tail
    have htail : ∃ o rest, copyinPorts abi right (i + 1) ws = some rest ∧ objects = o :: rest := by
      unfold copyinPorts at h
      simp only at h
      split at h
      · split at h
        · exact absurd h (by simp)
        · obtain ⟨rest, hrest, rfl⟩ := Option.map_eq_some_iff.mp h
          exact ⟨_, rest, hrest, rfl⟩
      · obtain ⟨rest, hrest, rfl⟩ := Option.map_eq_some_iff.mp h
        exact ⟨_, rest, hrest, rfl⟩
    obtain ⟨o, rest, hrest, rfl⟩ := htail
    rw [List.length_cons, List.length_cons, copyinPorts_length hrest]

theorem trimNumber_eq {saddr word : Nat} (h : n = 0 ∨ saddr + n * word ≤ eaddr) :
    trimNumber eaddr saddr word n = n := by
  cases n with
  | zero => rfl
  | succ n =>
    have hle : saddr + (n + 1) * word ≤ eaddr := h.resolve_left (by omega)
    rw [trimNumber, if_neg (by omega)]

/-! ## A body item by item -/

def itemEnd (abi : Abi) (t : MsgType) (a : Nat) : Nat :=
  abi.align (afterType abi t a +
    if t.isInline then lengthWide abi t.number t.size else abi.word)

def portsAt (abi : Abi) (b : Body) (t : MsgType) (a : Nat) : List Nat :=
  let saddr := afterType abi t a
  if t.isInline then readArray b.mem saddr abi.word t.number
  else readArray (b.heap (b.mem saddr)) 0 1 t.number

def describe (abi : Abi) (b : Body) (t : MsgType) (a : Nat) : Handled :=
  let saddr := afterType abi t a
  let length := lengthWide abi t.number t.size
  { item := ⟨a, saddr, length, t.isInline, portAny t.name⟩
    rights := if portAny t.name then rightsOf abi t.name (portsAt abi b t a) else []
    regions :=
      if t.isInline ∨ length = 0 then []
      else if portAny t.name then [.kalloc (b.mem saddr) length]
      else [.copy (b.mem saddr)] }

/-- The item `x` with descriptor `t` lies at `a` of the body, and its ports lie
inside the body or in a region the body owns. -/
structure Settled (abi : Abi) (eaddr : Nat) (b : Body) (t : MsgType) (a : Nat) (x : Handled) :
    Prop where
  type : readType abi b.mem a = t
  shape : x = describe abi b t a
  array : t.isInline → portAny t.name → t.number * abi.word ≤ lengthWide abi t.number t.size
  inside : t.isInline → portAny t.name →
    t.number = 0 ∨ afterType abi t a + t.number * abi.word ≤ eaddr
  owned : ¬ t.isInline → portAny t.name → t.number = 0 ∨ b.mem (afterType abi t a) < b.fresh

theorem describe_ool (hin : ¬ t.isInline) : describe abi b t a =
      ⟨⟨a, afterType abi t a, lengthWide abi t.number t.size, false, portAny t.name⟩,
        if portAny t.name then
          rightsOf abi t.name (readArray (b.heap (b.mem (afterType abi t a))) 0 1 t.number)
        else [],
        if lengthWide abi t.number t.size = 0 then []
        else if portAny t.name then
          [.kalloc (b.mem (afterType abi t a)) (lengthWide abi t.number t.size)]
        else [.copy (b.mem (afterType abi t a))]⟩ := by
  simp [describe, portsAt, hin]

theorem lt_itemEnd (abi : Abi) (t : MsgType) (a : Nat) : a < itemEnd abi t a := by
  have h1 := lt_afterType abi t a
  have h2 := le_align abi (afterType abi t a +
    if t.isInline then lengthWide abi t.number t.size else abi.word)
  unfold itemEnd
  omega

theorem afterType_le_itemEnd (abi : Abi) (t : MsgType) (a : Nat) :
    afterType abi t a ≤ itemEnd abi t a := by
  have h2 := le_align abi (afterType abi t a +
    if t.isInline then lengthWide abi t.number t.size else abi.word)
  unfold itemEnd
  omega

theorem data_le_itemEnd (abi : Abi) (ht : t.isInline) (a : Nat) :
    afterType abi t a + lengthWide abi t.number t.size ≤ itemEnd abi t a := by
  have h2 := le_align abi (afterType abi t a + lengthWide abi t.number t.size)
  unfold itemEnd
  rw [if_pos ht]
  exact h2

theorem pointer_lt_itemEnd (abi : Abi) (ht : ¬ t.isInline) (a : Nat) :
    afterType abi t a < itemEnd abi t a := by
  have h2 := le_align abi (afterType abi t a + abi.word)
  have hw := word_pos abi
  unfold itemEnd
  rw [if_neg ht]
  omega

theorem Settled.congr {b' : Body} (h : Settled abi eaddr b t a x)
    (hm : EqOn b.mem b'.mem a (itemEnd abi t a)) (hh : ∀ r, r < b.fresh → b'.heap r = b.heap r)
    (hf : b.fresh ≤ b'.fresh) :
    Settled abi eaddr b' t a x := by
  have hle := afterType_le_itemEnd abi t a
  have hlt := lt_afterType abi t a
  have hw := word_pos abi
  have ht : readType abi b'.mem a = t := by
    refine (readType_congr fun c h1 h2 => hm c h1 ?_).trans h.type
    rw [h.type] at h2
    omega
  by_cases hin : t.isInline
  · have hdata := data_le_itemEnd abi hin a
    have hshape : describe abi b' t a = describe abi b t a := by
      by_cases hp : portAny t.name
      · have harr := h.array hin hp
        have hports : portsAt abi b' t a = portsAt abi b t a := by
          simp only [portsAt, if_pos hin]
          exact (readArray_congr (fun c h1 h2 => hm c (by omega) (by omega)) hw).symm
        simp [describe, hports, hin]
      · simp [describe, hin, hp]
    exact ⟨ht, h.shape.trans hshape.symm, h.array, h.inside, absurd hin⟩
  · have hptr : b'.mem (afterType abi t a) = b.mem (afterType abi t a) :=
      (hm _ (by omega) (pointer_lt_itemEnd abi hin a)).symm
    have hshape : describe abi b' t a = describe abi b t a := by
      by_cases hp : portAny t.name
      · have hports : portsAt abi b' t a = portsAt abi b t a := by
          simp only [portsAt, if_neg hin, hptr]
          rcases h.owned hin hp with h0 | hown
          · rw [h0]
            rfl
          · rw [hh _ hown]
        simp only [describe, hports, hptr]
      · simp [describe, hptr, hp]
    refine ⟨ht, h.shape.trans hshape.symm, h.array, h.inside, fun hn hp => ?_⟩
    rcases h.owned hn hp with h0 | hown
    · exact .inl h0
    · exact .inr (by omega)

/-! ## What copyin leaves behind -/

/-- The size in the descriptor of the kernel body: on 64 bits an out-of-line
array of names becomes an array of ports. -/
def kernelSize (abi : Abi) (t : MsgType) : Nat :=
  match abi with
  | .lp64 => if portAny t.name ∧ ¬ t.isInline ∧ lengthWide .lp64 t.number t.size ≠ 0 then 64
      else t.size
  | .i386 => t.size

/-- One turn of copyin: the item it leaves at `a`, up to `a₁`, and what it leaves
alone. -/
structure Copied (abi : Abi) (eaddr : Nat) (b : Body) (a : Nat) (b₁ : Body) (x : Handled)
    (a₁ : Nat) (t₁ : MsgType) : Prop where
  settled : Settled abi eaddr b₁ t₁ a x
  number : t₁.number = (readType abi b.mem a).number
  size : t₁.size = kernelSize abi (readType abi b.mem a)
  stop : a₁ = itemEnd abi t₁ a
  stop₀ : a₁ = itemEnd abi (readType abi b.mem a) a
  mem : ∀ c, c < a ∨ a₁ ≤ c → b₁.mem c = b.mem c
  heap : ∀ r, r < b.fresh → b₁.heap r = b.heap r
  fresh : b.fresh ≤ b₁.fresh
  regions : ∀ r ∈ x.regions, b.fresh ≤ r.data ∧ r.data < b₁.fresh
  single : x.regions.Nodup

theorem portAny_copyinType (n : Nat) : portAny (copyinType n) := by
  unfold copyinType
  split
  · decide
  · split <;> decide

theorem copyinType_lt (n : Nat) : copyinType n < 2 ^ 8 := by
  unfold copyinType
  split
  · decide
  · split <;> decide

theorem afterType_congr {t' : MsgType} (h : t'.longform = t.longform) (a : Nat) :
    afterType abi t' a = afterType abi t a := by
  rw [afterType_eq, afterType_eq, h]

theorem kernelSize_eq (h : ¬ (portAny t.name ∧ ¬ t.isInline ∧ lengthWide abi t.number t.size ≠ 0)) :
    kernelSize abi t = t.size := by
  cases abi with
  | lp64 => exact if_neg h
  | i386 => rfl

theorem readType_named {m' : Mem} (ht : readType abi m a = t) (hn : n < 2 ^ 8)
    (hm : EqOn (setName abi m a t.longform n) m' a (afterType abi t a)) :
    SameData t (readType abi m' a) ∧ (readType abi m' a).name = n ∧
      (readType abi m' a).size = t.size := by
  subst ht
  have hset : SameData (readType abi m a)
        (readType abi (setName abi m a (readType abi m a).longform n) a) ∧ _ :=
    readType_setName hn
  obtain ⟨hsame, hname, hsize⟩ := hset
  have heq : readType abi m' a =
      readType abi (setName abi m a (readType abi m a).longform n) a := by
    refine readType_congr ?_
    rw [afterType_congr hsame.longform]
    exact hm
  rw [heq]
  exact ⟨hsame, hname, hsize⟩

theorem copyinInline_copied (ht : readType abi b.mem a = t) (hin : t.isInline)
    (h : copyinInline abi w eaddr b a t = .ok (b1, x, a1)) :
    ∃ t1, Copied abi eaddr b a b1 x a1 t1 := by
  have hsz : kernelSize abi t = t.size := kernelSize_eq fun h => h.2.1 hin
  have hend : abi.align (afterType abi t a + lengthWide abi t.number t.size) = itemEnd abi t a := by
    rw [itemEnd, if_pos hin]
  have hw := word_pos abi
  have hlt := lt_afterType abi t a
  unfold copyinInline at h
  simp only at h
  obtain ⟨hfit, h⟩ := of_ite_error h
  split at h
  next hp =>
    obtain ⟨harr, h⟩ := of_ite_error h
    split at h
    · cases h
    rename_i objects hobj
    cases h
    have hlen : objects.length = t.number := by
      rw [copyinPorts_length hobj, length_readArray]
    have hkeep : EqOn (setName abi b.mem a t.longform (copyinType t.name))
        (writeArray (setName abi b.mem a t.longform (copyinType t.name))
          (afterType abi t a) abi.word objects) a (afterType abi t a) :=
      fun c _ hc => (writeArray_below objects hc).symm
    have hread := read_writeArray hw objects
      (m := setName abi b.mem a t.longform (copyinType t.name)) (a := afterType abi t a)
    rw [hlen] at hread
    obtain ⟨hsame, hname, hsize⟩ := readType_named ht (copyinType_lt t.name) hkeep
    have hafter : afterType abi _ a = afterType abi t a := afterType_congr hsame.longform a
    refine ⟨_, ⟨rfl, ?_, fun _ _ => ?_, fun _ _ => ?_, fun hn => ?_⟩, ?_, ?_, ?_, ?_,
      fun c hc => ?_, fun _ _ => rfl, (Nat.le_refl _), by simp, by simp⟩
    · simp [describe, portsAt, hsame.number, hsame.isInline, hname, hsize, hafter, hread, hin, portAny_copyinType]
    · rw [hsame.number, hsize]
      omega
    · rw [hsame.number, hafter]
      by_cases h0 : t.number = 0
      · exact .inl h0
      · have : 0 < t.number * abi.word := Nat.mul_pos (by omega) hw
        omega
    · rw [hsame.isInline] at hn
      exact absurd hin hn
    · rw [hsame.number, ht]
    · rw [hsize, ht, hsz]
    · rw [itemEnd, hsame.isInline, if_pos hin, hsame.number, hsize, hafter]
    · rw [ht, hend]
    · have hstop := data_le_itemEnd abi hin a
      show writeArray _ (afterType abi t a) abi.word objects c = b.mem c
      rcases hc with hc | hc
      · rw [writeArray_below objects (by omega), (setType_outside (.inl hc)).1]
      · rw [writeArray_above hw objects (by rw [hlen]; omega), (setType_outside (.inr (by omega))).1]
  next hp =>
    cases h
    refine ⟨t, ⟨ht, ?_, fun _ hp' => absurd hp' hp, fun _ hp' => absurd hp' hp,
      (absurd hin)⟩, by rw [ht], by rw [ht, hsz], hend, by rw [ht, hend],
      fun _ _ => rfl, fun _ _ => rfl, (Nat.le_refl _), by simp, by simp⟩
    simp [describe, hin, hp]

theorem readType_number_lt (abi : Abi) (m : Mem) (a : Nat) :
    (readType abi m a).number < 2 ^ 32 := by
  cases abi with
  | lp64 => exact Nat.mod_lt _ (Nat.two_pow_pos 32)
  | i386 =>
    simp only [readType]
    split
    · exact Nat.mod_lt _ (Nat.two_pow_pos 32)
    · exact Nat.lt_of_lt_of_le (Nat.mod_lt _ (Nat.two_pow_pos 12)) (by decide)

theorem readType_size_lt (abi : Abi) (m : Mem) (a : Nat) : (readType abi m a).size < 2 ^ 16 := by
  cases abi with
  | lp64 => exact Nat.mod_lt _ (Nat.two_pow_pos 16)
  | i386 =>
    simp only [readType]
    split
    · exact Nat.mod_lt _ (Nat.two_pow_pos 16)
    · exact Nat.lt_of_lt_of_le (Nat.mod_lt _ (Nat.two_pow_pos 8)) (by decide)

theorem portsLength_eq (hp : portAny t.name) (hin : ¬ t.isInline)
    (hlen : lengthWide abi t.number t.size ≠ 0) (hn : t.number < 2 ^ 32) :
    lengthWide abi t.number (kernelSize abi t) = portsLength abi t := by
  cases abi with
  | lp64 =>
    have hk : kernelSize .lp64 t = 64 := if_pos ⟨hp, hin, hlen⟩
    simp only [hk, portsLength, lengthWide, word, vmBits]
    omega
  | i386 => rfl

theorem portsLength_ne_zero (hlen : lengthWide abi t.number t.size ≠ 0) :
    portsLength abi t ≠ 0 := by
  cases abi with
  | lp64 =>
    intro h
    have h0 : t.number = 0 := by
      simp only [portsLength, word] at h
      omega
    exact hlen (by simp [lengthWide, h0])
  | i386 => exact hlen

theorem readType_widen (ht : readType abi m a = t) (hp : portAny t.name) (hin : ¬ t.isInline)
    (hlen : lengthWide abi t.number t.size ≠ 0) :
    SameData t (readType abi (widenSize abi m a t) a) ∧
      (readType abi (widenSize abi m a t) a).name = t.name ∧
      (readType abi (widenSize abi m a t) a).size = kernelSize abi t := by
  subst ht
  cases abi with
  | lp64 =>
    have hk : kernelSize .lp64 (readType .lp64 m a) = 64 := if_pos ⟨hp, hin, hlen⟩
    rw [hk]
    exact readType_setSize m a (readType .lp64 m a).longform
  | i386 => exact ⟨⟨rfl, rfl, rfl⟩, rfl, rfl⟩

theorem Copied.ool {t1 : MsgType} (ht : readType abi b.mem a = t) (hin : ¬ t.isInline)
    (ht1 : readType abi b1.mem a = t1) (hsd : SameData t t1) (hsize : t1.size = kernelSize abi t)
    (hshape : x = describe abi b1 t1 a)
    (howned : portAny t1.name → t1.number = 0 ∨ b1.mem (afterType abi t a) < b1.fresh)
    (hmem : ∀ c, c < a ∨ itemEnd abi t a ≤ c → b1.mem c = b.mem c)
    (hheap : ∀ r, r < b.fresh → b1.heap r = b.heap r) (hfresh : b.fresh ≤ b1.fresh)
    (hregions : ∀ r ∈ x.regions, b.fresh ≤ r.data ∧ r.data < b1.fresh)
    (hsingle : x.regions.Nodup) :
    Copied abi eaddr b a b1 x (abi.align (afterType abi t a + abi.word)) t1 := by
  have hafter : afterType abi t1 a = afterType abi t a := afterType_congr hsd.longform a
  have hno : ¬ t1.isInline := hsd.isInline ▸ hin
  have hend : abi.align (afterType abi t a + abi.word) = itemEnd abi t a := by
    rw [itemEnd, if_neg hin]
  rw [hend]
  subst ht
  refine ⟨⟨ht1, hshape, fun hi => absurd hi hno, fun hi => absurd hi hno, fun _ hp => ?_⟩,
    hsd.number, hsize, ?_, rfl, hmem, hheap, hfresh, hregions, hsingle⟩
  · rw [hafter]
    exact howned hp
  · rw [itemEnd, itemEnd, if_neg hin, if_neg hno, hafter]

theorem copyinOol_copied (ht : readType abi b.mem a = t) (hin : ¬ t.isInline)
    (h : copyinOol abi w eaddr b a t = .ok (b1, x, a1)) :
    ∃ t1, Copied abi eaddr b a b1 x a1 t1 := by
  have hlt := lt_afterType abi t a
  have hptr := pointer_lt_itemEnd abi hin a
  have hn : t.number < 2 ^ 32 := ht ▸ readType_number_lt abi b.mem a
  -- the pointer is written behind the descriptor
  have hkeep : ∀ m v, EqOn m (update m (afterType abi t a) v) a (afterType abi t a) :=
    fun m v c _ hc => (update_of_ne (by omega) ..).symm
  have hsame : ∀ v, readType abi (update b.mem (afterType abi t a) v) a = t := by
    intro v
    refine (readType_congr ?_).trans ht
    rw [ht]
    exact hkeep b.mem v
  unfold copyinOol at h
  simp only at h
  obtain ⟨hfit, h⟩ := of_ite_error h
  split at h
  next hzero =>
    split at h
    next hp =>
      obtain ⟨hnum, h⟩ := of_ite_error h
      cases h
      have h0 : t.number = 0 := not_not.mp hnum
      obtain ⟨hsd, hname, hsize⟩ := readType_named ht (copyinType_lt t.name) (hkeep _ 0)
      refine ⟨_, .ool ht hin rfl hsd (hsize.trans (kernelSize_eq fun h => h.2.2 hzero).symm) ?_
        (fun _ => .inl (hsd.number.trans h0)) (fun c hc => ?_) (fun _ _ => rfl)
        (Nat.le_refl _) (by simp) (by simp)⟩
      · rw [describe_ool (by rwa [hsd.isInline]), hsd.number, hname, hsize,
          afterType_congr hsd.longform, hzero, h0]
        simp only [portAny_copyinType, if_true, readArray]
        rfl
      · exact (update_of_ne (by omega) ..).trans (setType_outside (by omega)).1
    next hp =>
      cases h
      refine ⟨t, .ool ht hin (hsame 0) ⟨rfl, rfl, rfl⟩ (kernelSize_eq fun h => hp h.1).symm ?_
        (fun hp' => absurd hp' hp) (fun c hc => update_of_ne (by omega) ..) (fun _ _ => rfl)
        (Nat.le_refl _) (by simp) (by simp)⟩
      rw [describe_ool hin, if_neg hp, if_pos hzero, hzero, Bool.eq_false_iff.mpr hp]
  next hlen =>
    obtain ⟨hmem, h⟩ := of_ite_error h
    split at h
    next hp =>
      obtain ⟨harr, h⟩ := of_ite_error h
      split at h
      · cases h
      rename_i objects hobj
      cases h
      have hol : objects.length = t.number := by
        rw [copyinPorts_length hobj, length_readArray]
      obtain ⟨hwd, hwname, hwsize⟩ := readType_widen ht hp hin hlen
      have hkeep := hkeep (setName abi (widenSize abi b.mem a t) a
        (readType abi (widenSize abi b.mem a t) a).longform (copyinType t.name)) b.fresh
      rw [← afterType_congr hwd.longform] at hkeep
      obtain ⟨hsd, hname, hsize⟩ := readType_named rfl (copyinType_lt t.name) hkeep
      rw [hwd.longform, afterType_congr hwd.longform] at hsd hname hsize
      replace hsd : SameData t _ := ⟨hsd.number.trans hwd.number,
        hsd.isInline.trans hwd.isInline, hsd.longform.trans hwd.longform⟩
      have hsz := hsize.trans hwsize
      have hread := read_writeArray Nat.one_pos objects (m := b.heap b.fresh) (a := 0)
      rw [hol] at hread
      refine ⟨_, .ool ht hin rfl hsd hsz ?_ (fun _ => .inr ?_) (fun c hc => ?_)
        (fun r hr => update_of_ne (by omega) ..) (Nat.le_succ _) (by simp [Region.data])
        (by simp)⟩
      · rw [describe_ool (by rwa [hsd.isInline]), hsd.number, hname, hsz,
          afterType_congr hsd.longform, portsLength_eq hp hin hlen hn]
        simp only [portAny_copyinType, if_true, update_self, hread,
          if_neg (portsLength_ne_zero hlen)]
      · simp only [update_self]
        exact Nat.lt_succ_self _
      · refine (update_of_ne (by omega) ..).trans ?_
        rw [(setType_outside (by omega)).1, widenSize_outside (by omega)]
    next hp =>
      cases h
      refine ⟨t, .ool ht hin (hsame b.fresh) ⟨rfl, rfl, rfl⟩
        (kernelSize_eq fun h => hp h.1).symm ?_ (fun hp' => absurd hp' hp)
        (fun c hc => update_of_ne (by omega) ..) (fun _ _ => rfl) (Nat.le_succ _)
        (by simp [Region.data]) (by simp)⟩
      rw [describe_ool hin, if_neg hp, if_neg hlen, if_neg hp, Bool.eq_false_iff.mpr hp]
      simp only [update_self]

theorem copyinItem_copied (h : copyinItem abi w eaddr b a = .ok (b1, x, a1)) :
    ∃ t1, Copied abi eaddr b a b1 x a1 t1 := by
  obtain ⟨-, h⟩ := of_ite_error h
  obtain ⟨-, h⟩ := of_ite_error h
  split at h
  next hin => exact copyinInline_copied rfl hin h
  next hin => exact copyinOol_copied rfl hin h

end Mach.Ipc.Kmsg
