import Mach.Ipc.CopyUser
import Mach.Lib.Fallible

/-!
# The items of a converted message

`copyinmsg` lays the items out one after the other: `Laid` says where each descriptor and
its data are. `ipc_kmsg_copyin_body` finds the items again by its own rule. For elements
whose size is not a number of bytes the two rules differ: `copyinmsg` cuts the size of one
element down to bytes, `ipc_kmsg_copyin_body` rounds up the size of all elements.
-/

namespace Mach.Ipc.CopyUser

open Lib Lib.ByteMem List Option Nat Bool
open Kmsg (MsgType Abi portAny readType lengthWide afterType)
open Lib.WordMem (getField walk walk_done walk_turn walk_cases walk_ne_stuck)

/-! ## The layout -/

/-- The descriptor at `us`, as the kernel stores it. -/
def userType (m : Mem) (us : Nat) : MsgType :=
  if (userTypeToKernel (readLe m us 4)).longform then userTypeToKernelLong (readLe m us 12)
  else userTypeToKernel (readLe m us 4)

def userAmount (t : MsgType) : Nat := if t.longform then 12 else 4

def userLength (t : MsgType) : Nat :=
  if t.isInline then if portAny t.name then 4 * t.number else t.size / 8 * t.number else 4

def kernelLength (t : MsgType) : Nat :=
  if t.isInline then if portAny t.name then 8 * t.number else t.size / 8 * t.number else 8

def bodyLength (t : MsgType) : Nat :=
  if t.isInline then if portAny t.name then 8 * t.number else (t.number * t.size + 7) / 8 else 8

def userNext (t : MsgType) (us : Nat) : Nat := userAlign (userAlign (us + userAmount t) + userLength t)

def kernelNext (t : MsgType) (ks : Nat) : Nat := kernelAlign (ks + 8 + kernelLength t)

/-- The items of a user's message, as `copyinmsg` takes them off. -/
def userItems (m : Mem) (ueaddr : Nat) : Nat → Nat → List MsgType
  | 0, _ => []
  | fuel + 1, us =>
    if us < ueaddr - 3 then
      userType m us :: userItems m ueaddr fuel (userNext (userType m us) us)
    else []

def kernelEnd : Nat → List MsgType → Nat
  | ks, [] => ks
  | ks, t :: ts => kernelEnd (kernelNext t ks) ts

def placedAt : Nat → List MsgType → List Placed
  | _, [] => []
  | ks, t :: ts => ⟨ks, ks + 8⟩ :: placedAt (kernelNext t ks) ts

def kernelType (t : MsgType) : MsgType :=
  if t.isInline && portAny t.name then { t with size := t.size + 32 } else t

def DataIn (m : Mem) (us : Nat) (km : Mem) (ks : Nat) (t : MsgType) : Prop :=
  if t.isInline then
    if portAny t.name then ∀ i < t.number, readLe km (ks + 8 * i) 8 = readLe m (us + 4 * i) 4
    else readBytes km ks (t.size / 8 * t.number) = readBytes m us (t.size / 8 * t.number)
  else readLe km ks 8 = readLe m us 4

structure Item (m km : Mem) (us ks : Nat) (t : MsgType) : Prop where
  type : userType m us = t
  port : portAny t.name → t.size = 32
  desc : readLe km ks 8 = packType (kernelType t)
  data : DataIn m (userAlign (us + userAmount t)) km (ks + 8) t

inductive Laid (m km : Mem) : Nat → Nat → List MsgType → Prop
  | nil {us ks : Nat} : Laid m km us ks []
  | cons {us ks : Nat} {t : MsgType} {ts : List MsgType} : Item m km us ks t →
      Laid m km (userNext t us) (kernelNext t ks) ts → Laid m km us ks (t :: ts)

/-! ## Descriptors -/

structure Narrow (t : MsgType) : Prop where
  name : t.name < 2 ^ 8
  size : t.size < 2 ^ 16
  number : t.number < 2 ^ 32
  unused : t.unused = 0
  blank : t.blank = true

theorem userType_narrow (m : Mem) (us : Nat) : Narrow (userType m us) := by
  unfold userType
  split
  · exact ⟨mod_lt _ (by decide), mod_lt _ (by decide), mod_lt _ (by decide), rfl, rfl⟩
  · refine ⟨mod_lt _ (by decide), ?_, ?_, rfl, rfl⟩
    · exact lt_trans (mod_lt _ (by decide)) (by decide : 2 ^ 8 < 2 ^ 16)
    · exact lt_trans (mod_lt _ (by decide)) (by decide : 2 ^ 12 < 2 ^ 32)

theorem readType_packType {t : MsgType} {km : Mem} {a : Nat} (ht : Narrow t)
    (h : readLe km a 8 = packType t) : readType .lp64 (words km) a = t := by
  obtain ⟨name, size, number, unused, isInline, longform, dealloc, blank⟩ := t
  obtain ⟨hname, hsize, hnumber, rfl, rfl⟩ := ht
  have hw : words km a = packType ⟨name, size, number, 0, isInline, longform, dealloc, true⟩ := h
  dsimp only at hname hsize hnumber
  simp only [readType, hw, packType, getField]
  have hbit : ∀ b : Bool, b.toNat ≤ 1 := toNat_le
  have hi := hbit isInline
  have hl := hbit longform
  have hd := hbit dealloc
  rw [MsgType.mk.injEq]
  refine ⟨by omega, by omega, by omega, by omega, ?_, ?_, ?_, rfl⟩
  · cases isInline <;> simp only [toNat_true, toNat_false] at hi ⊢ <;>
      simp <;> omega
  · cases longform <;> simp only [toNat_true, toNat_false] at hl ⊢ <;>
      simp <;> omega
  · cases dealloc <;> simp only [toNat_true, toNat_false] at hd ⊢ <;>
      simp <;> omega

theorem kernelType_port {t : MsgType} (hin : t.isInline = true) (hport : portAny t.name = true) :
    kernelType t = { t with size := t.size + 32 } :=
  if_pos (and_eq_true_iff.mpr ⟨hin, hport⟩)

theorem kernelType_other {t : MsgType} (h : ¬(t.isInline = true ∧ portAny t.name = true)) :
    kernelType t = t := if_neg fun hand => h (and_eq_true_iff.mp hand)

theorem Narrow.kernelType {t : MsgType} (ht : Narrow t) (hport : portAny t.name → t.size = 32) :
    Narrow (kernelType t) := by
  by_cases h : t.isInline = true ∧ portAny t.name = true
  · have hsize : t.size + 32 < 2 ^ 16 := by rw [hport h.2]; decide
    rw [kernelType_port h.1 h.2]
    exact ⟨ht.name, hsize, ht.number, ht.unused, ht.blank⟩
  · rw [kernelType_other h]
    exact ht

theorem readLe_mod (m : Mem) (us : Nat) : readLe m us 12 % 2 ^ 32 = readLe m us 4 := by
  have h4 := readLe_lt m us 4
  have h12 : readLe m us 12 = readLe m us 4 + 256 ^ 4 * readLe m (us + 4) 8 := by
    rw [readLe, readBytes_add m us 4 8, leNat_append]
    rfl
  omega

theorem userType_longform (m : Mem) (us : Nat) :
    (userType m us).longform = (userTypeToKernel (readLe m us 4)).longform := by
  unfold userType
  split
  · have : getField (readLe m us 12) 29 1 = getField (readLe m us 4) 29 1 := by
      rw [← readLe_mod]
      unfold getField
      omega
    simp only [userTypeToKernelLong, userTypeToKernel, this]
  · rfl

section

variable {u : User} {us ue ks : Nat} {km km' : Mem} {t : MsgType}

theorem copyin_eq_some {a n : Nat} {b : List UInt8} (h : u.copyin a n = some b) :
    b = readBytes u.mem a n := by
  unfold User.copyin at h
  split at h
  · exact (Option.some.inj h).symm
  · cases h

theorem copyinUnpackMsgType_eq_some {n : Nat} (h : copyinUnpackMsgType u us = some (t, n)) :
    t = userType u.mem us ∧ n = userAmount t := by
  unfold copyinUnpackMsgType at h
  split at h
  · cases h
  rename_i b hb
  cases copyin_eq_some hb
  split at h
  next hlong =>
    split at h
    · cases h
    rename_i b' hb'
    cases copyin_eq_some hb'
    cases h
    have htype : userType u.mem us = userTypeToKernelLong (leNat (readBytes u.mem us 12)) :=
      if_pos hlong
    refine ⟨htype.symm, ?_⟩
    rw [← htype, userAmount, userType_longform]
    exact (if_pos hlong).symm
  next hlong =>
    cases h
    have htype : userType u.mem us = userTypeToKernel (leNat (readBytes u.mem us 4)) := if_neg hlong
    refine ⟨htype.symm, ?_⟩
    rw [← htype, userAmount, userType_longform]
    exact (if_neg hlong).symm

/-! ## What one turn does -/

theorem readLe_wide (m : Mem) (a : Nat) : readLe m a 4 < 256 ^ 8 :=
  lt_trans (readLe_lt m a 4) (by decide)

theorem copyinPorts_eq_some : ∀ {n us ks : Nat} {km : Mem}, copyinPorts u n us ks km = some km' →
    EqOn km' km 0 ks ∧ ∀ i < n, readLe km' (ks + 8 * i) 8 = readLe u.mem (us + 4 * i) 4
  | 0, us, ks, km, h => by
    cases h
    exact ⟨EqOn.refl km' 0 ks, fun i hi => absurd hi (not_lt_zero i)⟩
  | n + 1, us, ks, km, h => by
    rw [copyinPorts] at h
    split at h
    · cases h
    rename_i b hb
    cases copyin_eq_some hb
    obtain ⟨hbelow, hports⟩ := copyinPorts_eq_some h
    refine ⟨hbelow.mono.trans (eqOn_writeBytes km ks _ 0), ?_⟩
    intro i hi
    cases i with
    | zero =>
      change readLe km' ks 8 = readLe u.mem us 4
      rw [readLe_eq (hbelow.mono (zero_le ks) le_rfl)]
      exact readLe_writeLe_of_lt km ks (readLe_wide u.mem us)
    | succ i =>
      have := hports i (by omega)
      rwa [show ks + 8 + 8 * i = ks + 8 * (i + 1) by omega,
        show us + 4 + 4 * i = us + 4 * (i + 1) by omega] at this

theorem packType_lt (t : MsgType) : packType t < 256 ^ 8 := by
  have h1 := t.isInline.toNat_le
  have h2 := t.longform.toNat_le
  have h3 := t.dealloc.toNat_le
  unfold packType
  omega

theorem copyinData_cases {taddr ks' us' : Nat}
    (h : copyinData u ue t taddr us ks km = some (us', ks', km')) :
    us' = us + userLength t ∧ ks' = ks + kernelLength t ∧ us' ≤ ue ∧ (portAny t.name → t.size = 32) ∧
      (if t.isInline then
        if portAny t.name then
          copyinPorts u t.number us ks (writeLe km taddr 8 (packType { t with size := t.size + 32 })) = some km'
        else km' = writeBytes km ks (readBytes u.mem us (t.size / 8 * t.number))
      else km' = writeLe km ks 8 (readLe u.mem us 4)) := by
  unfold copyinData at h
  unfold userLength kernelLength
  split at h
  next hin =>
    rw [if_pos hin, if_pos hin, if_pos hin]
    split at h
    next hport =>
      rw [if_pos hport, if_pos hport, if_pos hport]
      obtain ⟨hsize, h⟩ := ite_none_left_eq_some.mp h
      obtain ⟨hfits, h⟩ := ite_none_left_eq_some.mp h
      obtain ⟨km1, hports, heq⟩ := map_eq_some_iff.mp h
      cases heq
      exact ⟨rfl, rfl, by omega, fun _ => Decidable.not_not.mp hsize, hports⟩
    next hport =>
      rw [if_neg hport, if_neg hport, if_neg hport]
      obtain ⟨hfits, h⟩ := ite_none_left_eq_some.mp h
      obtain ⟨b, hb, heq⟩ := map_eq_some_iff.mp h
      cases copyin_eq_some hb
      cases heq
      exact ⟨rfl, rfl, by omega, fun hp => absurd hp hport, rfl⟩
  next hin =>
    rw [if_neg hin, if_neg hin, if_neg hin]
    split at h
    · cases h
    rename_i hfits
    obtain ⟨hsize, h⟩ := ite_none_left_eq_some.mp h
    obtain ⟨b, hb, heq⟩ := map_eq_some_iff.mp h
    cases copyin_eq_some hb
    cases heq
    exact ⟨rfl, rfl, by omega, fun hp => Decidable.not_not.mp fun hne => hsize ⟨hp, hne⟩, rfl⟩

theorem copyinData_eq_some {ks' us' : Nat} (h : copyinData u ue t ks us (ks + 8) km = some (us', ks', km'))
    (hdesc : readLe km ks 8 = packType t) :
    EqOn km' km 0 ks ∧ readLe km' ks 8 = packType (kernelType t) ∧ DataIn u.mem us km' (ks + 8) t := by
  obtain ⟨-, -, -, -, hwrite⟩ := copyinData_cases h
  have hkept : ∀ b, km' = writeBytes km (ks + 8) b →
      EqOn km' km 0 ks ∧ readLe km' ks 8 = packType t := by
    rintro b rfl
    have hbelow := eqOn_writeBytes km (ks + 8) b 0
    refine ⟨hbelow.mono, ?_⟩
    rw [readLe_eq (hbelow.mono (zero_le ks) le_rfl), hdesc]
  unfold DataIn
  split at hwrite
  next hin =>
    rw [if_pos hin]
    split at hwrite
    next hport =>
      obtain ⟨hbelow, hread⟩ := copyinPorts_eq_some hwrite
      rw [if_pos hport, kernelType_port hin hport]
      refine ⟨hbelow.mono.trans (eqOn_writeBytes km ks _ 0), ?_, hread⟩
      rw [readLe_eq (hbelow.mono (zero_le ks) le_rfl)]
      exact readLe_writeLe_of_lt km ks (packType_lt _)
    next hport =>
      obtain ⟨hbelow, hdesc'⟩ := hkept _ hwrite
      rw [if_neg hport, kernelType_other fun h => hport h.2, hwrite]
      exact ⟨hwrite ▸ hbelow, hwrite ▸ hdesc', readBytes_writeBytes_readBytes ..⟩
  next hin =>
    obtain ⟨hbelow, hdesc'⟩ := hkept _ hwrite
    rw [if_neg hin, kernelType_other fun h => hin h.1]
    refine ⟨hbelow, hdesc', ?_⟩
    rw [hwrite]
    exact readLe_writeLe_of_lt km (ks + 8) (readLe_wide u.mem us)

theorem copyinItem_ne_stuck (s : Nat × Mem) (us : Nat) : copyinItem u ue s us ≠ .error .stuck := by
  simp only [copyinItem]
  split
  · exact nofun
  · split <;> exact nofun

theorem kernelAlign_of_dvd {x : Nat} (h : x % 8 = 0) : kernelAlign x = x := by
  simp only [kernelAlign, Abi.align, Abi.word]
  omega

theorem kernelAlign_mod (x : Nat) : kernelAlign x % 8 = 0 := by
  simp only [kernelAlign, Abi.align, Abi.word]
  omega

theorem le_kernelAlign (x : Nat) : x ≤ kernelAlign x := by
  simp only [kernelAlign, Abi.align, Abi.word]
  omega

theorem le_userAlign (x : Nat) : x ≤ userAlign x := by
  unfold userAlign
  omega

theorem userAmount_ge (t : MsgType) : 4 ≤ userAmount t := by
  unfold userAmount
  split <;> omega

theorem userNext_ge (t : MsgType) (us : Nat) : us + userAmount t ≤ userAlign (us + userAmount t) ∧
      userAlign (us + userAmount t) + userLength t ≤ userNext t us :=
  ⟨le_userAlign _, le_userAlign _⟩

theorem lt_userNext (t : MsgType) (us : Nat) : us < userNext t us := by
  have := userAmount_ge t
  unfold userNext userAlign
  omega

theorem kernelNext_mod (t : MsgType) (ks : Nat) : kernelNext t ks % 8 = 0 := kernelAlign_mod _

theorem le_kernelNext (t : MsgType) (ks : Nat) : ks + 8 + kernelLength t ≤ kernelNext t ks :=
  le_kernelAlign _

theorem copyinItem_next {s s' : Nat × Mem} {p : Placed} {us' : Nat}
    (h : copyinItem u ue s us = .ok (s', p, us')) : us' = userNext (userType u.mem us) us := by
  simp only [copyinItem] at h
  split at h
  · cases h
  rename_i t n hunpack
  obtain ⟨rfl, rfl⟩ := copyinUnpackMsgType_eq_some hunpack
  split at h
  · cases h
  rename_i us1 ks1 km1 hdata
  cases h
  rw [(copyinData_cases hdata).1]
  rfl

theorem copyinItem_eq_ok {s : Nat × Mem} {p : Placed} {us' : Nat} (hks : ks % 8 = 0)
    (h : copyinItem u ue (ks, km) us = .ok (s, p, us')) :
    s.1 = kernelNext (userType u.mem us) ks ∧ p = ⟨ks, ks + 8⟩ ∧
      us' = userNext (userType u.mem us) us ∧
      userAlign (us + userAmount (userType u.mem us)) + userLength (userType u.mem us) ≤ ue ∧
      EqOn s.2 km 0 ks ∧ Item u.mem s.2 us ks (userType u.mem us) := by
  have halign : kernelAlign (ks + 8) = ks + 8 := kernelAlign_of_dvd (by omega)
  simp only [copyinItem, halign] at h
  split at h
  · cases h
  rename_i t n hunpack
  obtain ⟨rfl, rfl⟩ := copyinUnpackMsgType_eq_some hunpack
  split at h
  · cases h
  rename_i us1 ks1 km1 hdata
  cases h
  obtain ⟨hbelow, hdesc', hin⟩ :=
    copyinData_eq_some hdata (readLe_writeLe_of_lt km ks (packType_lt _))
  obtain ⟨rfl, rfl, hfits, hport, -⟩ := copyinData_cases hdata
  exact ⟨rfl, rfl, rfl, hfits, hbelow.trans (eqOn_writeBytes km ks _ 0), rfl, hport, hdesc', hin⟩

end

/-! ## The whole loop -/

section

variable {m km km' : Mem} {us ks : Nat} {t : MsgType} {ts : List MsgType}

theorem DataIn.frame {n : Nat} (hn : ks + kernelLength t ≤ n) (h : DataIn m us km ks t)
    (hfr : EqOn km' km ks n) : DataIn m us km' ks t := by
  unfold DataIn at h ⊢
  unfold kernelLength at hn
  split
  next hin =>
    rw [if_pos hin] at h hn
    split
    next hport =>
      rw [if_pos hport] at h hn
      intro i hi
      rw [← h i hi]
      exact readLe_eq hfr.mono
    next hport =>
      rw [if_neg hport] at h hn
      rw [← h]
      exact readBytes_eq (hfr.mono (le_refl ks) hn)
  next hin =>
    rw [if_neg hin] at h hn
    rw [← h]
    exact readLe_eq (hfr.mono (le_refl ks) hn)

theorem Item.frame (h : Item m km us ks t) (hfr : EqOn km' km ks (kernelNext t ks)) :
    Item m km' us ks t := by
  have hle := le_kernelNext t ks
  refine ⟨h.type, h.port, ?_, ?_⟩
  · rw [← h.desc]
    exact readLe_eq hfr.mono
  · exact h.data.frame le_rfl (hfr.mono (by omega) hle)

theorem Laid.frame (h : Laid m km us ks ts) : (∀ a, ks ≤ a → km' a = km a) → Laid m km' us ks ts := by
  induction h with
  | nil => exact fun _ => Laid.nil
  | @cons us ks t ts hitem _ ih =>
    intro hfr
    have hle := le_kernelNext t ks
    exact Laid.cons (hitem.frame fun a ha _ => hfr a ha) (ih fun a ha => hfr a (by omega))

structure Walked (u : User) (ueaddr us ks : Nat) (km : Mem) (ts : List MsgType) (s : Nat × Mem)
    (placed : List Placed) : Prop where
  laid : Laid u.mem s.2 us ks ts
  below : EqOn s.2 km 0 ks
  ends : s.1 = kernelEnd ks ts
  placed : placed = placedAt ks ts

theorem copyin_walk {u : User} {ue : Nat} : ∀ {fuel us ks : Nat} {km : Mem} {s : Nat × Mem}
    {placed : List Placed}, ks % 8 = 0 →
    walk .stuck (copyinItem u ue) (ue - 3) fuel (ks, km) us = .ok (s, placed) →
    Walked u ue us ks km (userItems u.mem ue fuel us) s placed := by
  intro fuel
  induction fuel with
  | zero =>
    intro us ks km s placed hks h
    rcases walk_cases h with ⟨_, rfl, rfl⟩ | ⟨k, _, _, _, _, hk, _⟩
    · exact ⟨Laid.nil, EqOn.refl km 0 ks, rfl, rfl⟩
    · cases hk
  | succ fuel ih =>
    intro us ks km s placed hks h
    rcases walk_cases h with ⟨hend, rfl, rfl⟩ | ⟨k, s1, p, us1, rest, hk, hlt, hitem, hrest, rfl⟩
    · rw [userItems, if_neg (not_lt.mpr hend)]
      exact ⟨Laid.nil, EqOn.refl km 0 ks, rfl, rfl⟩
    · cases hk
      obtain ⟨ks1, km1⟩ := s1
      obtain ⟨hks1, rfl, rfl, _, hbelow, hitem⟩ := copyinItem_eq_ok hks hitem
      change ks1 = kernelNext (userType u.mem us) ks at hks1
      subst hks1
      obtain ⟨hlaid, hbelow', hends, rfl⟩ := ih (kernelNext_mod _ _) hrest
      have hle := le_kernelNext (userType u.mem us) ks
      rw [userItems, if_pos hlt]
      refine ⟨Laid.cons (hitem.frame ?_) hlaid, ?_, hends, rfl⟩
      · exact hbelow'.mono (zero_le ks) le_rfl
      · exact hbelow'.mono.trans hbelow

/-! ## The rule of `ipc_kmsg_copyin_body` -/

def SameLength (t : MsgType) : Prop := kernelAlign (bodyLength t) = kernelAlign (kernelLength t)

theorem kernelAlign_add {x : Nat} (n : Nat) (h : x % 8 = 0) : kernelAlign (x + n) = x + kernelAlign n := by
  simp only [kernelAlign, Abi.align, Abi.word]
  omega

theorem kernelLength_le (t : MsgType) : kernelLength t ≤ bodyLength t := by
  unfold kernelLength bodyLength
  split
  · split
    · exact le_rfl
    · -- rounding down each element is not more than rounding up their sum
      have hmul : t.size / 8 * t.number * 8 ≤ t.number * t.size := by
        calc t.size / 8 * t.number * 8 = t.number * (t.size / 8 * 8) := by ring
          _ ≤ t.number * t.size := mul_le_mul_left _ (div_mul_le_self _ _)
      omega
  · exact le_rfl

theorem lengthWide_eq {number size : Nat} (hn : number < 2 ^ 32) (hs : size < 2 ^ 16) :
    lengthWide .lp64 number size = (number * size + 7) / 8 := by
  have hmul : number * size < 2 ^ 32 * 2 ^ 16 := mul_lt_mul'' hn hs
  simp only [lengthWide, Abi.vmBits]
  omega

theorem sameLength_iff (t : MsgType) : SameLength t ↔ (t.isInline = true → portAny t.name = false →
      kernelAlign ((t.number * t.size + 7) / 8) = kernelAlign (t.size / 8 * t.number)) := by
  unfold SameLength bodyLength kernelLength
  by_cases hin : t.isInline = true
  · by_cases hport : portAny t.name = true
    · simp [hin, hport]
    · simp [hin, hport]
  · simp [hin]

theorem bodyItem_eq (eaddr s : Nat) (hks : ks % 8 = 0) (h : Item m km us ks t) :
    bodyItem km eaddr s ks =
      if eaddr - ks < 8 ∨ eaddr - (ks + 8) < bodyLength t then .error .returned
      else .ok (ks + 8 + kernelAlign (bodyLength t), ⟨ks, ks + 8⟩, ks + 8 + kernelAlign (bodyLength t)) := by
  have hnarrow : Narrow t := h.type ▸ userType_narrow m us
  have hread := readType_packType (hnarrow.kernelType h.port) h.desc
  have hsaddr : afterType .lp64 (kernelType t) ks = ks + 8 := by
    unfold afterType
    split <;> rfl
  have hamount : (if (kernelType t).isInline then
      lengthWide .lp64 (kernelType t).number (kernelType t).size else 8) = bodyLength t := by
    unfold bodyLength
    by_cases hin : t.isInline = true
    · by_cases hport : portAny t.name = true
      · rw [kernelType_port hin hport, if_pos hin, if_pos hin, if_pos hport]
        dsimp only
        rw [h.port hport, lengthWide_eq hnarrow.number (by decide)]
        omega
      · rw [kernelType_other fun h => hport h.2, if_pos hin, if_pos hin, if_neg hport]
        exact lengthWide_eq hnarrow.number hnarrow.size
    · rw [kernelType_other fun h => hin h.1, if_neg hin, if_neg hin]
  simp only [bodyItem, hread, hsaddr, hamount]
  rw [kernelAlign_add (bodyLength t) (by omega : (ks + 8) % 8 = 0)]

theorem bodyItem_taddr {eaddr a s s' a' : Nat} {p : Placed}
    (h : bodyItem km eaddr s a = .ok (s', p, a')) : p.taddr = a := by
  simp only [bodyItem] at h
  split at h <;> split at h <;> cases h <;> rfl

theorem le_kernelEnd : ∀ (ts : List MsgType) (ks : Nat), ks ≤ kernelEnd ks ts
  | [], ks => le_refl ks
  | t :: ts, ks => by
    have hle := le_kernelNext t ks
    have := le_kernelEnd ts (kernelNext t ks)
    rw [kernelEnd]
    omega

theorem kernelNext_eq (t : MsgType) (hks : ks % 8 = 0) :
    kernelNext t ks = ks + 8 + kernelAlign (kernelLength t) :=
  kernelAlign_add (kernelLength t) (by omega)

theorem body_walk_eq (h : Laid m km us ks ts) : ∀ {fuel : Nat}, ks % 8 = 0 →
    (∀ t ∈ ts, SameLength t) → kernelEnd ks ts - ks ≤ fuel →
    walk .stuck (bodyItem km (kernelEnd ks ts)) (kernelEnd ks ts) fuel ks ks =
      .ok (kernelEnd ks ts, placedAt ks ts) := by
  induction h with
  | nil => exact fun _ _ _ => walk_done le_rfl
  | @cons us ks t ts hitem _ ih =>
    intro fuel hks hsame hfuel
    have hnext := kernelNext_eq t hks
    have hlen : kernelAlign (bodyLength t) = kernelAlign (kernelLength t) := hsame t mem_cons_self
    have hbody := le_kernelAlign (bodyLength t)
    have hend := le_kernelEnd ts (kernelNext t ks)
    have hturn := bodyItem_eq (kernelEnd ks (t :: ts)) ks hks hitem
    rw [if_neg (by rw [kernelEnd]; omega), hlen, ← hnext] at hturn
    obtain ⟨fuel, rfl⟩ : ∃ k, fuel = k + 1 := ⟨fuel - 1, by rw [kernelEnd] at hfuel; omega⟩
    have hrest := @ih fuel (kernelNext_mod t ks) (forall_mem_cons.mp hsame).2
      (by rw [kernelEnd] at hfuel; omega)
    rw [walk_turn (by rw [kernelEnd]; omega) hturn, kernelEnd, hrest]
    rfl

theorem body_walk_same (h : Laid m km us ks ts) : ∀ {fuel eaddr : Nat}, ks % 8 = 0 →
    eaddr ≤ kernelEnd ks ts →
    walk .stuck (bodyItem km eaddr) eaddr fuel ks ks = .ok (eaddr, placedAt ks ts) →
    (∀ t ∈ ts, SameLength t) ∧ eaddr = kernelEnd ks ts := by
  induction h with
  | nil =>
    intro fuel eaddr _ _ hwalk
    rcases walk_cases hwalk with ⟨_, rfl, _⟩ | ⟨_, _, _, _, _, _, _, _, _, hne⟩
    · exact ⟨forall_mem_nil _, rfl⟩
    · cases hne
  | @cons us ks t ts hitem hlaid ih =>
    intro fuel eaddr hks hle hwalk
    rcases walk_cases hwalk with ⟨_, _, hne⟩ | ⟨k, s1, p, a1, rest, _, _, hturn, hrest, hplaced⟩
    · cases hne
    · rw [bodyItem_eq _ ks hks hitem] at hturn
      obtain ⟨-, hturn⟩ := of_ite_error hturn
      cases hturn
      obtain rfl : placedAt (kernelNext t ks) ts = rest := (List.cons.inj hplaced).2
      have hnext := kernelNext_eq t hks
      have hmono : kernelAlign (kernelLength t) ≤ kernelAlign (bodyLength t) := by
        have := kernelLength_le t
        simp only [kernelAlign, Abi.align, Abi.word]
        omega
      -- where the next item was found, or where the walk ended
      have hpos : ks + 8 + kernelAlign (bodyLength t) = kernelNext t ks := by
        cases hlaid with
        | nil =>
          rcases walk_cases hrest with ⟨_, heq, _⟩ | ⟨_, _, _, _, _, _, _, _, _, hne⟩
          · rw [kernelEnd, kernelEnd] at hle
            omega
          · cases hne
        | @cons _ _ t' ts' hitem' _ =>
          rcases walk_cases hrest with ⟨_, _, hne⟩ | ⟨_, _, p, _, _, _, _, hturn', _, hplaced'⟩
          · cases hne
          · rw [← bodyItem_taddr hturn', ← (List.cons.inj hplaced').1]
      rw [hpos] at hrest
      obtain ⟨hsame, hend⟩ := ih (kernelNext_mod _ _) hle hrest
      refine ⟨forall_mem_cons.mpr ⟨?_, hsame⟩, hend⟩
      unfold SameLength
      omega

end

/-! ## Whole messages -/

section

variable {u : User} {umsg usize : Nat} {km km' : Mem} {placed : List Placed}

/-- The items that `copyinmsg` converts. -/
def messageItems (u : User) (umsg usize : Nat) : List MsgType :=
  userItems u.mem (umsg + usize) usize (umsg + 24)

theorem copyinmsg_eq_ok (h : copyinmsg u umsg usize km = .ok (km', placed)) :
    ∃ km1 km2, copyinHeader u umsg km = some km1 ∧
      Walked u (umsg + usize) (umsg + 24) 32 km1 (messageItems u umsg usize)
        (kernelEnd 32 (messageItems u umsg usize), km2) placed ∧
      km' = writeLe km2 4 4 (kernelEnd 32 (messageItems u umsg usize)) := by
  unfold copyinmsg at h
  split at h
  · cases h
  rename_i km1 hheader
  dsimp only at h
  split at h
  · cases h
  rename_i ks km2 placed' hloop
  cases h
  have hwalk : Walked u (umsg + usize) (umsg + 24) 32 km1 (messageItems u umsg usize)
      (ks, km2) placed := by
    split at hloop
    next => exact copyin_walk (by decide) hloop
    next hsmall =>
      cases hloop
      have hnil : messageItems u umsg usize = [] := by
        cases usize with
        | zero => rfl
        | succ n => exact if_neg (by omega)
      rw [hnil]
      exact ⟨Laid.nil, EqOn.refl km1 0 32, rfl, rfl⟩
  obtain rfl : ks = _ := hwalk.ends
  exact ⟨km1, km2, hheader, hwalk, rfl⟩

theorem Laid.setSize {m : Mem} {us : Nat} {ts : List MsgType} (v : Nat) (h : Laid m km us 32 ts) :
    Laid m (writeLe km 4 4 v) us 32 ts := by
  refine h.frame fun a ha => writeBytes_above ?_
  rw [length_leBytes]
  omega

theorem msghSize_writeLe (v : Nat) : msghSize (writeLe km 4 4 v) = v % 2 ^ 32 := readLe_writeLe km 4 4 v

/-- **The items of a converted message.** `ipc_kmsg_copyin_body` finds exactly the items
that `copyinmsg` converted, where it placed them, and ends at `msgh_size`, if and only if
rounding the size of an element down to bytes loses no word of the data of any item, and
the message is smaller than 4 GiB. -/
theorem bodyItems_copyinmsg_iff (h : copyinmsg u umsg usize km = .ok (km', placed)) :
    bodyItems km' = .ok (msghSize km', placed) ↔
      (∀ t ∈ messageItems u umsg usize, t.isInline = true → portAny t.name = false →
        kernelAlign ((t.number * t.size + 7) / 8) = kernelAlign (t.size / 8 * t.number)) ∧
      kernelEnd 32 (messageItems u umsg usize) < 2 ^ 32 := by
  obtain ⟨km1, km2, _, hwalk, rfl⟩ := copyinmsg_eq_ok h
  have hlaid := hwalk.laid.setSize (kernelEnd 32 (messageItems u umsg usize))
  have hsame : (∀ t ∈ messageItems u umsg usize, SameLength t) ↔
      ∀ t ∈ messageItems u umsg usize, t.isInline = true → portAny t.name = false →
        kernelAlign ((t.number * t.size + 7) / 8) = kernelAlign (t.size / 8 * t.number) :=
    forall₂_congr fun t _ => sameLength_iff t
  rw [← hsame, bodyItems, msghSize_writeLe, hwalk.placed]
  constructor
  · intro hbody
    obtain ⟨hlen, hend⟩ := body_walk_same hlaid (by decide) (mod_le _ _) hbody
    refine ⟨hlen, ?_⟩
    rw [← hend]
    exact mod_lt _ (by decide)
  · rintro ⟨hlen, hsmall⟩
    rw [mod_eq_of_lt hsmall]
    exact body_walk_eq hlaid (by decide) hlen (sub_le _ _)

def userOf (bytes : List UInt8) : User where
  mem := fun a => bytes.getD a 0
  mapped := fun _ => true

/-- A message with an integer of 32 bits, a send right that is copied, and four integers out of
line. -/
def threeItems : User :=
  userOf (List.replicate 24 0 ++ leBytes 4 (2 + 32 * 2 ^ 8 + 1 * 2 ^ 16 + 2 ^ 28) ++ [1, 2, 3, 4] ++
    leBytes 4 (19 + 32 * 2 ^ 8 + 1 * 2 ^ 16 + 2 ^ 28) ++ [7, 0, 0, 0] ++
    leBytes 4 (2 + 32 * 2 ^ 8 + 4 * 2 ^ 16) ++ [0, 0x10, 0, 0])

theorem bodyItems_threeItems : ∃ km' placed, copyinmsg threeItems 0 48 (fun _ => 0) = .ok (km', placed) ∧
    bodyItems km' = .ok (msghSize km', placed) ∧ placed.length = 3 := by
  have hok : (copyinmsg threeItems 0 48 fun _ => 0).map (·.2.length) = .ok 3 := by decide
  cases h : copyinmsg threeItems 0 48 fun _ => 0 with
  | error e =>
    rw [h] at hok
    cases hok
  | ok r =>
    rw [h] at hok
    exact ⟨r.1, r.2, rfl, (bodyItems_copyinmsg_iff h).mpr (by decide), Except.ok.inj hok⟩

def manyBits : User := userOf (List.replicate 24 0 ++ leBytes 4 (1 * 2 ^ 8 + 64 * 2 ^ 16 + 2 ^ 28))

/-- `copyinmsg` copies no byte of the 64 bits, and `ipc_kmsg_copyin_body` misses 8 bytes. -/
theorem bodyItems_manyBits : ∃ km' placed, copyinmsg manyBits 0 28 (fun _ => 0) = .ok (km', placed) ∧
    bodyItems km' = .error .returned := by
  have hcheck : (match copyinmsg manyBits 0 28 fun _ => 0 with
      | .ok r => (match bodyItems r.1 with
        | .error .returned => true
        | _ => false)
      | .error _ => false) = true := by decide
  cases h : copyinmsg manyBits 0 28 fun _ => 0 with
  | error e =>
    rw [h] at hcheck
    cases hcheck
  | ok r =>
    rw [h] at hcheck
    dsimp only at hcheck
    split at hcheck
    next hbody => exact ⟨r.1, r.2, rfl, hbody⟩
    next => cases hcheck

theorem copyinmsg_ne_stuck : copyinmsg u umsg usize km ≠ .error .stuck := by
  unfold copyinmsg
  split
  next => exact nofun
  next km1 _ =>
    have hloop : (if usize > 24 then walk .stuck (copyinItem u (umsg + usize)) (umsg + usize - 3) usize
        (32, km1) (umsg + 24) else .ok ((32, km1), [])) ≠ .error Failure.stuck := by
      split
      next => exact walk_ne_stuck (fun h => copyinItem_next h ▸ lt_userNext ..) copyinItem_ne_stuck (by omega)
      next => exact nofun
    dsimp only
    split
    next e he =>
      intro hstuck
      cases hstuck
      exact hloop he
    next => exact nofun

end

end Mach.Ipc.CopyUser
