import Mach.Ipc.CopyUserWalk

/-!
# From the user to the kernel and back

A well-formed message of a 32-bit user goes through `copyinmsg` and then `copyoutmsg`. The
message comes back as it was when the name of every long-form descriptor has 8 bits: in a
user's message that field has 16 bits, in a message of the kernel it has 8.
-/

namespace Mach.Ipc.CopyUser

open Lib Lib.ByteMem List Nat
open Kmsg (MsgType Abi portAny readType)
open Lib.WordMem (getField walk walk_done walk_turn walk_cases walk_ne_stuck)

/-! ## Well-formed messages -/

/-- The descriptor at `us`, as the user sees it: the name of the long form has 16 bits. -/
def userDesc (m : Mem) (us : Nat) : MsgType :=
  if (userType m us).longform then { userType m us with name := getField (readLe m us 12) 32 16 }
  else userType m us

/-- What is well-formed in the item at `us`. -/
structure Tidy (m : Mem) (us : Nat) (d : MsgType) : Prop where
  desc : userDesc m us = d
  bits : d.size % 8 = 0
  port : portAny d.name → d.size = 32
  unused : getField (readLe m us 4) 31 1 = 0
  blank : d.longform → getField (readLe m us 4) 0 28 = 0

/-- The items from `us` on, each of them complete, up to `ueaddr`. -/
inductive Items (m : Mem) (ueaddr : Nat) : Nat → List MsgType → Prop
  | nil : Items m ueaddr ueaddr []
  | cons {us : Nat} {d : MsgType} {ds : List MsgType} : Tidy m us d → userNext d us ≤ ueaddr →
      Items m ueaddr (userNext d us) ds → Items m ueaddr us (d :: ds)

/-- A message at `umsg` with the items `ds`. -/
structure WellFormed (u : User) (umsg usize : Nat) (ds : List MsgType) : Prop where
  small : usize < 2 ^ 32
  mapped : ∀ i < usize, u.mapped (umsg + i)
  items : Items u.mem (umsg + usize) (umsg + 24) ds

/-- The descriptors and the data of the items at `us` and at `us'` are the same. -/
inductive SameItems (m m' : Mem) : Nat → Nat → List MsgType → Prop
  | nil {us us' : Nat} : SameItems m m' us us' []
  | cons {us us' : Nat} {d : MsgType} {ds : List MsgType} :
      readBytes m' us' (userAmount d) = readBytes m us (userAmount d) →
      readBytes m' (userAlign (us' + userAmount d)) (userLength d) =
        readBytes m (userAlign (us + userAmount d)) (userLength d) →
      SameItems m m' (userNext d us) (userNext d us') ds → SameItems m m' us us' (d :: ds)

/-- The message at `umsg'` is that at `umsg`, of `usize` bytes. -/
structure SameMessage (m m' : Mem) (umsg umsg' usize : Nat) (ds : List MsgType) : Prop where
  bits : readBytes m' umsg' 4 = readBytes m umsg 4
  size : readLe m' (umsg' + 4) 4 = usize
  remotePort : readBytes m' (umsg' + 8) 4 = readBytes m (umsg + 8) 4
  localPort : readBytes m' (umsg' + 12) 4 = readBytes m (umsg + 12) 4
  seqnoAndId : readBytes m' (umsg' + 16) 8 = readBytes m (umsg + 16) 8
  items : SameItems m m' (umsg + 24) (umsg' + 24) ds

/-! ## Descriptors -/

section

variable {m : Mem} {us : Nat} {d : MsgType}

theorem userDesc_longform (m : Mem) (us : Nat) : (userDesc m us).longform = (userType m us).longform := by
  unfold userDesc
  split <;> rfl

theorem Tidy.userType_eq (h : Tidy m us d) (hname : d.name < 2 ^ 8) : userType m us = d := by
  have hdesc := h.desc
  unfold userDesc at hdesc
  split at hdesc
  next hlong =>
    have hshape : userType m us = userTypeToKernelLong (readLe m us 12) :=
      if_pos (userType_longform m us ▸ hlong)
    subst hdesc
    rw [hshape]
    simp only [userTypeToKernelLong, MsgType.mk.injEq, and_true]
    exact mod_eq_of_lt hname
  next => exact hdesc

/-- What `copyout_unpack_msg_type` writes for a descriptor, its size put back. -/
def encode (t : MsgType) : List UInt8 :=
  if t.longform then leBytes 12 (kernelTypeToUserLong t) else leBytes 4 (kernelTypeToUser t)

theorem copyoutType_kernelType {t : MsgType} (hport : portAny t.name → t.size = 32) :
    copyoutType (kernelType t) = encode t := by
  unfold copyoutType encode
  by_cases h : t.isInline = true ∧ portAny t.name = true
  · rw [kernelType_port h.1 h.2]
    obtain ⟨hin, hp⟩ := h
    have hsize := hport hp
    obtain ⟨name, size, number, unused, isInline, longform, dealloc, blank⟩ := t
    subst hsize hin
    simp [hp]
  · rw [kernelType_other h]
    have hand : (portAny t.name && t.isInline) = false := by
      rw [Bool.and_comm]
      exact (Bool.eq_false_iff).mpr fun hand => h (Bool.and_eq_true_iff.mp hand)
    rw [hand]
    rfl

theorem leBytes_eq_readBytes_iff {n v a : Nat} (hv : v < 256 ^ n) :
    leBytes n v = readBytes m a n ↔ v = readLe m a n := by
  constructor
  · intro h
    rw [readLe, ← h, leNat_leBytes, mod_eq_of_lt hv]
  · intro h
    rw [h, leBytes_readLe]

theorem toNat_flag (w lo : Nat) : (decide (getField w lo 1 = 1)).toNat = getField w lo 1 := by
  have hlt : getField w lo 1 < 2 := mod_lt _ (by decide)
  by_cases h : getField w lo 1 = 1
  · simp [h]
  · simp only [h, decide_false, Bool.toNat_false]
    omega

theorem kernelTypeToUserLong_lt (t : MsgType) : kernelTypeToUserLong t < 256 ^ 12 := by
  have h1 := t.isInline.toNat_le
  have h2 := t.longform.toNat_le
  have h3 := t.dealloc.toNat_le
  unfold kernelTypeToUserLong
  omega

theorem kernelTypeToUser_lt (t : MsgType) : kernelTypeToUser t < 256 ^ 4 := by
  have h1 := t.isInline.toNat_le
  have h2 := t.longform.toNat_le
  have h3 := t.dealloc.toNat_le
  unfold kernelTypeToUser
  omega

theorem Tidy.encode_eq_iff (h : Tidy m us d) :
    encode (userType m us) = readBytes m us (userAmount d) ↔ d.name < 2 ^ 8 := by
  have hdesc := h.desc
  have hunused := h.unused
  have hflag := userType_longform m us
  have hlong : d.longform = (userType m us).longform := hdesc ▸ userDesc_longform m us
  by_cases hl : (userType m us).longform = true
  · have hblank := h.blank (hlong.trans hl)
    have hshape : userType m us = userTypeToKernelLong (readLe m us 12) := if_pos (hflag ▸ hl)
    have hname : d.name = getField (readLe m us 12) 32 16 := by
      rw [← hdesc, userDesc, if_pos hl]
    have hlow := readLe_mod m us
    have hlt := readLe_lt m us 12
    rw [userAmount, hlong, encode, if_pos hl, if_pos hl,
      leBytes_eq_readBytes_iff (kernelTypeToUserLong_lt _), hshape, hname]
    simp only [kernelTypeToUserLong, userTypeToKernelLong, toNat_flag]
    clear hdesc hflag hlong hshape hname hl
    unfold getField at *
    constructor <;> intro h <;> omega
  · have hshape : userType m us = userTypeToKernel (readLe m us 4) := if_neg (hflag ▸ hl)
    have hd : userType m us = d := by
      rw [← hdesc, userDesc, if_neg hl]
    have hname : d.name < 2 ^ 8 := hd ▸ (userType_narrow m us).name
    rw [userAmount, hlong, encode, if_neg hl, if_neg hl,
      leBytes_eq_readBytes_iff (kernelTypeToUser_lt _), hshape]
    refine iff_of_true ?_ hname
    have hlt := readLe_lt m us 4
    simp only [kernelTypeToUser, userTypeToKernel, toNat_flag]
    unfold getField at *
    omega

end

/-! ## `copyoutmsg` writes back what was converted -/

section

variable {m km : Mem} {u u' : User} {us us' ks : Nat} {t : MsgType}

variable {a ks' : Nat}

theorem copyout_eq_some {l : List UInt8} (h : u.copyout a l = some u') :
    u' = { u with mem := writeBytes u.mem a l } := by
  unfold User.copyout at h
  split at h
  · exact (Option.some.inj h).symm
  · cases h

theorem copyout_spec {l : List UInt8} (h : u.copyout a l = some u') :
    u'.mapped = u.mapped ∧ EqOn u'.mem u.mem 0 a ∧ readBytes u'.mem a l.length = l := by
  cases copyout_eq_some h
  exact ⟨rfl, eqOn_writeBytes u.mem a l 0, readBytes_writeBytes u.mem a l⟩

theorem leBytes_readLe_low (h : readLe km ks 8 = readLe m a 4) :
    leBytes 4 (readLe km ks 8) = readBytes m a 4 := by
  rw [h, leBytes_readLe]

theorem copyout_append (u : User) (a : Nat) (l l' : List UInt8) :
    u.copyout a (l ++ l') = (u.copyout a l).bind (·.copyout (a + l.length) l') := by
  have hiff : (∀ i < (l ++ l').length, u.mapped (a + i)) ↔
      (∀ i < l.length, u.mapped (a + i)) ∧ ∀ i < l'.length, u.mapped (a + l.length + i) := by
    rw [length_append]
    refine ⟨fun h => ⟨fun i hi => h i (by omega), fun i hi => ?_⟩, fun h i hi => ?_⟩
    · rw [add_assoc]
      exact h _ (by omega)
    by_cases hlt : i < l.length
    · exact h.1 i hlt
    · have := h.2 (i - l.length) (by omega)
      rwa [show a + l.length + (i - l.length) = a + i by omega] at this
  unfold User.copyout
  rw [writeBytes_append]
  simp only [hiff, ite_and]
  split <;> rfl

def portBytes (km : Mem) : Nat → Nat → List UInt8
  | 0, _ => []
  | n + 1, ks => leBytes 4 (readLe km ks 8) ++ portBytes km n (ks + 8)

def dataBytes (km : Mem) (t : MsgType) (ks : Nat) : List UInt8 :=
  if t.isInline then
    if portAny t.name then portBytes km t.number ks else readBytes km ks (t.size / 8 * t.number)
  else leBytes 4 (readLe km ks 8)

theorem copyoutPorts_eq (km : Mem) : ∀ (n ks us : Nat) (u : User),
    copyoutPorts km n ks us u = u.copyout us (portBytes km n ks)
  | 0, ks, us, u => by
    rw [copyoutPorts, portBytes, User.copyout, if_pos nofun, writeBytes_nil]
  | n + 1, ks, us, u => by
    rw [copyoutPorts, portBytes, copyout_append, length_leBytes]
    cases u.copyout us (leBytes 4 (readLe km ks 8)) with
    | none => rfl
    | some u => exact copyoutPorts_eq km n (ks + 8) (us + 4) u

theorem copyoutData_eq (km : Mem) (t : MsgType) (ks us : Nat) (u : User) :
    copyoutData km t ks us u = (u.copyout us (dataBytes km t ks)).map fun u =>
      (ks + kernelLength t, us + userLength t, u) := by
  unfold copyoutData dataBytes kernelLength userLength
  split
  · split
    · rw [copyoutPorts_eq]
    · rfl
  · rfl

theorem length_portBytes (km : Mem) : ∀ n ks, (portBytes km n ks).length = 4 * n
  | 0, _ => rfl
  | n + 1, ks => by
    rw [portBytes, length_append, length_leBytes, length_portBytes km n]
    omega

theorem length_dataBytes (km : Mem) (t : MsgType) (ks : Nat) : (dataBytes km t ks).length = userLength t := by
  unfold dataBytes userLength
  split
  · split
    · exact length_portBytes ..
    · exact length_readBytes ..
  · exact length_leBytes ..

theorem length_copyoutType (t : MsgType) : (copyoutType t).length = userAmount t := by
  unfold copyoutType userAmount
  split <;> split <;> simp_all

theorem copyoutItem_eq_ok {s s' : Nat × User} (h : copyoutItem km s ks = .ok (s', t, ks')) :
    t = readType .lp64 (words km) ks ∧ s'.1 = userNext t s.1 ∧
      ks' = kernelAlign (kernelAlign (ks + 8) + kernelLength t) ∧
      ∃ u1, s.2.copyout s.1 (copyoutType t) = some u1 ∧
        u1.copyout (userAlign (s.1 + userAmount t)) (dataBytes km t (kernelAlign (ks + 8))) = some s'.2 := by
  simp only [copyoutItem] at h
  split at h
  · cases h
  rename_i u1 hdesc
  split at h
  · cases h
  rename_i ks1 us1 u2 hdata
  rw [copyoutData_eq] at hdata
  obtain ⟨u2, hout, heq⟩ := Option.map_eq_some_iff.mp hdata
  cases heq
  cases h
  exact ⟨rfl, rfl, rfl, u1, hdesc, hout⟩

theorem kernelType_same (km : Mem) (t : MsgType) (ks : Nat) :
    userAmount (kernelType t) = userAmount t ∧ userLength (kernelType t) = userLength t ∧
      kernelLength (kernelType t) = kernelLength t ∧ dataBytes km (kernelType t) ks = dataBytes km t ks := by
  by_cases h : t.isInline = true ∧ portAny t.name = true
  · rw [kernelType_port h.1 h.2]
    simp [userAmount, userLength, kernelLength, dataBytes, h.1, h.2]
  · rw [kernelType_other h]
    exact ⟨rfl, rfl, rfl, rfl⟩

theorem portBytes_eq : ∀ {n ks us : Nat},
    (∀ i < n, readLe km (ks + 8 * i) 8 = readLe m (us + 4 * i) 4) →
    portBytes km n ks = readBytes m us (4 * n)
  | 0, ks, us, _ => rfl
  | n + 1, ks, us, h => by
    have htail : ∀ i < n, readLe km (ks + 8 + 8 * i) 8 = readLe m (us + 4 + 4 * i) 4 := by
      intro i hi
      have := h (i + 1) (by omega)
      rwa [show ks + 8 * (i + 1) = ks + 8 + 8 * i by omega,
        show us + 4 * (i + 1) = us + 4 + 4 * i by omega] at this
    have hhead : readLe km ks 8 = readLe m us 4 := h 0 (succ_pos n)
    rw [portBytes, leBytes_readLe_low hhead, portBytes_eq htail, ← readBytes_add,
      show 4 + 4 * n = 4 * (n + 1) by omega]

theorem DataIn.bytes (h : DataIn m us km ks t) : dataBytes km t ks = readBytes m us (userLength t) := by
  unfold DataIn at h
  unfold dataBytes userLength
  split at h
  next hi =>
    rw [if_pos hi, if_pos hi]
    split at h
    next hp =>
      rw [if_pos hp, if_pos hp]
      exact portBytes_eq h
    next hp =>
      rw [if_neg hp, if_neg hp]
      exact h
  next hi =>
    rw [if_neg hi, if_neg hi]
    exact leBytes_readLe_low h

theorem length_encode (t : MsgType) : (encode t).length = userAmount t := by
  unfold encode userAmount
  split <;> exact length_leBytes _ _

theorem copyoutItem_below {s s' : Nat × User} (h : copyoutItem km s ks = .ok (s', t, ks')) :
    s.1 ≤ s'.1 ∧ EqOn s'.2.mem s.2.mem 0 s.1 := by
  obtain ⟨-, hus, -, u1, hdesc, hdata⟩ := copyoutItem_eq_ok h
  obtain ⟨h1, h2⟩ := userNext_ge t s.1
  rw [hus]
  exact ⟨by omega, ((copyout_spec hdata).2.1.mono).trans (copyout_spec hdesc).2.1⟩

theorem copyoutItem_spec {s : Nat × User} {t' : MsgType} (hks : ks % 8 = 0)
    (hitem : Item m km us ks t) (h : copyoutItem km (us', u) ks = .ok (s, t', ks')) :
    s.1 = userNext t us' ∧ ks' = kernelNext t ks ∧ s.2.mapped = u.mapped ∧ EqOn s.2.mem u.mem 0 us' ∧
      readBytes s.2.mem us' (userAmount t) = encode t ∧
      readBytes s.2.mem (userAlign (us' + userAmount t)) (userLength t) =
        readBytes m (userAlign (us + userAmount t)) (userLength t) := by
  have hnarrow : Narrow t := hitem.type ▸ userType_narrow m us
  have hread := readType_packType (hnarrow.kernelType hitem.port) hitem.desc
  have halign : kernelAlign (ks + 8) = ks + 8 := kernelAlign_of_dvd (by omega)
  obtain ⟨rfl, hus, rfl, u1, hdesc, hdata⟩ := copyoutItem_eq_ok h
  obtain ⟨hamount, hulength, hklength, hbytes⟩ := kernelType_same km t (ks + 8)
  rw [hread, copyoutType_kernelType hitem.port] at hdesc
  rw [hread, halign, hbytes, hamount, hitem.data.bytes] at hdata
  rw [hread, userNext, hamount, hulength] at hus
  obtain ⟨hmap1, hbelow1, hread1⟩ := copyout_spec hdesc
  obtain ⟨hmap2, hbelow2, hread2⟩ := copyout_spec hdata
  rw [length_encode] at hread1
  rw [length_readBytes] at hread2
  have hle := le_userAlign (us' + userAmount t)
  refine ⟨hus, by rw [hread, halign, hklength]; rfl, hmap2.trans hmap1, ?_, ?_, hread2⟩
  · exact (hbelow2.mono (le_refl 0) (le_trans (le_add_right _ _) hle)).trans hbelow1
  · rw [← hread1]
    exact readBytes_eq (hbelow2.mono (zero_le _) hle)

end

/-! ## Nothing fails -/

section

variable {u : User} {us us' ue ks : Nat} {km m : Mem} {t : MsgType}

def MappedOn (u : User) (lo hi : Nat) : Prop := ∀ a, lo ≤ a → a < hi → u.mapped a = true

theorem MappedOn.mono {lo hi lo' hi' : Nat} (h : MappedOn u lo hi) (hlo : lo ≤ lo' := by omega)
    (hhi : hi' ≤ hi := by omega) :
    MappedOn u lo' hi' := fun a h1 h2 => h a (by omega) (by omega)

theorem MappedOn.copyin {a n : Nat} (h : MappedOn u a (a + n)) :
    u.copyin a n = some (readBytes u.mem a n) := if_pos fun i hi => h (a + i) (by omega) (by omega)

theorem MappedOn.copyout {a : Nat} {l : List UInt8} (h : MappedOn u a (a + l.length)) :
    u.copyout a l = some { u with mem := writeBytes u.mem a l } :=
  if_pos fun i hi => h (a + i) (by omega) (by omega)

theorem copyinUnpackMsgType_mapped (h : MappedOn u us (us + userAmount (userType u.mem us))) :
    copyinUnpackMsgType u us = some (userType u.mem us, userAmount (userType u.mem us)) := by
  have hflag := userType_longform u.mem us
  unfold userAmount at h ⊢
  unfold copyinUnpackMsgType
  by_cases hl : (userType u.mem us).longform = true
  · have hl' : (userTypeToKernel (leNat (readBytes u.mem us 4))).longform = true := hflag ▸ hl
    have hshape : userType u.mem us = userTypeToKernelLong (readLe u.mem us 12) := if_pos hl'
    rw [if_pos hl] at h ⊢
    rw [(h.mono : MappedOn u us (us + 4)).copyin]
    dsimp only
    rw [if_pos hl', h.copyin, hshape]
    rfl
  · have hl' : ¬(userTypeToKernel (leNat (readBytes u.mem us 4))).longform = true := hflag ▸ hl
    have hshape : userType u.mem us = userTypeToKernel (readLe u.mem us 4) := if_neg hl'
    rw [if_neg hl] at h ⊢
    rw [h.copyin]
    dsimp only
    rw [if_neg hl', hshape]
    rfl

theorem copyinPorts_mapped : ∀ {n us ks : Nat} {km : Mem}, MappedOn u us (us + 4 * n) →
    ∃ km', copyinPorts u n us ks km = some km'
  | 0, us, ks, km, _ => ⟨km, rfl⟩
  | n + 1, us, ks, km, h => by
    have hhead : MappedOn u us (us + 4) := h.mono
    rw [copyinPorts, hhead.copyin]
    exact copyinPorts_mapped h.mono

theorem copyinData_mapped {taddr : Nat} (hport : portAny t.name → t.size = 32)
    (hfits : us + userLength t ≤ ue) (h : MappedOn u us (us + userLength t)) :
    ∃ r, copyinData u ue t taddr us ks km = some r := by
  unfold userLength at hfits h
  unfold copyinData
  by_cases hi : t.isInline = true
  · rw [if_pos hi] at hfits h
    rw [if_pos hi]
    by_cases hp : portAny t.name = true
    · rw [if_pos hp] at hfits h
      rw [if_pos hp, if_neg (not_not_intro (hport hp)), if_neg (by omega)]
      obtain ⟨km', hports⟩ := @copyinPorts_mapped u t.number us ks
        (writeLe km taddr 8 (packType { t with size := t.size + 32 })) h
      dsimp only
      rw [hports]
      exact ⟨_, rfl⟩
    · rw [if_neg hp] at hfits h
      rw [if_neg hp]
      rw [if_neg (by omega), h.copyin]
      exact ⟨_, rfl⟩
  · rw [if_neg hi] at hfits h
    rw [if_neg hi, if_neg (by omega), if_neg fun hand => hand.2 (hport hand.1), h.copyin]
    exact ⟨_, rfl⟩

theorem copyinItem_mapped {s : Nat × Mem} (hport : portAny (userType u.mem us).name → (userType u.mem us).size = 32)
    (hnext : userNext (userType u.mem us) us ≤ ue) (h : MappedOn u us ue) :
    ∃ r, copyinItem u ue s us = .ok r := by
  obtain ⟨h1, h2⟩ := userNext_ge (userType u.mem us) us
  simp only [copyinItem]
  rw [copyinUnpackMsgType_mapped h.mono]
  obtain ⟨⟨us1, ks1, km1⟩, hdata⟩ := @copyinData_mapped u
    (userAlign (us + userAmount (userType u.mem us))) ue (kernelAlign (s.1 + 8))
    (writeLe s.2 s.1 8 (packType (userType u.mem us))) (userType u.mem us) s.1 hport (by omega)
    h.mono
  dsimp only
  rw [hdata]
  exact ⟨_, rfl⟩

theorem copyoutItem_mapped (h : MappedOn u us (userNext (readType .lp64 (words km) ks) us)) :
    ∃ r, copyoutItem km (us, u) ks = .ok r := by
  obtain ⟨h1, h2⟩ := userNext_ge (readType .lp64 (words km) ks) us
  have hdesc : MappedOn u us (us + (copyoutType (readType .lp64 (words km) ks)).length) := by
    rw [length_copyoutType]
    exact h.mono
  unfold userAmount at h1 h2
  simp only [copyoutItem]
  rw [hdesc.copyout]
  dsimp only
  rw [copyoutData_eq, MappedOn.copyout]
  · exact ⟨_, rfl⟩
  · rw [length_dataBytes]
    exact fun a ha hb => h a (by omega) (by omega)

end

/-! ## The loops over a well-formed message -/

section

variable {m m' km : Mem} {u : User} {us us' ue ks : Nat} {d : MsgType} {ds : List MsgType}

theorem userNext_shift (t : MsgType) (h : us' % 4 = us % 4) :
    userNext t us' + us = us' + userNext t us ∧ userNext t us' % 4 = userNext t us % 4 := by
  unfold userNext
  generalize userLength t = n
  generalize userAmount t = k
  unfold userAlign
  omega

theorem Items.le (h : Items m ue us ds) : us ≤ ue := by
  cases h with
  | nil => exact le_rfl
  | @cons _ d ds _ hnext _ =>
    obtain ⟨h1, h2⟩ := userNext_ge d us
    omega

theorem Items.lt (hnext : userNext d us ≤ ue) : us < ue - 3 := by
  obtain ⟨h1, h2⟩ := userNext_ge d us
  have := userAmount_ge d
  omega

theorem userItems_eq (h : Items m ue us ds) : ∀ {fuel : Nat}, (∀ d ∈ ds, d.name < 2 ^ 8) →
    ue - us ≤ fuel → userItems m ue fuel us = ds := by
  induction h with
  | nil =>
    intro fuel _ _
    cases fuel with
    | zero => rfl
    | succ fuel => exact if_neg (by omega)
  | @cons us d ds htidy hnext _ ih =>
    intro fuel hname hfuel
    have hlt := Items.lt hnext
    have hpos := lt_userNext d us
    obtain ⟨fuel, rfl⟩ : ∃ k, fuel = k + 1 := ⟨fuel - 1, by omega⟩
    have htype := htidy.userType_eq (hname d mem_cons_self)
    rw [userItems, if_pos hlt, htype, ih (forall_mem_cons.mp hname).2 (by omega)]

theorem copyin_walk_mapped (h : Items u.mem ue us ds) : ∀ {fuel : Nat} {s : Nat × Mem},
    (∀ d ∈ ds, d.name < 2 ^ 8) → MappedOn u us ue → ue - us ≤ fuel →
    ∃ r, walk .stuck (copyinItem u ue) (ue - 3) fuel s us = .ok r := by
  induction h with
  | nil => exact fun _ _ _ => ⟨_, walk_done (sub_le _ _)⟩
  | @cons us d ds htidy hnext _ ih =>
    intro fuel s hname hmap hfuel
    have hlt := Items.lt hnext
    have hpos := lt_userNext d us
    obtain ⟨fuel, rfl⟩ : ∃ k, fuel = k + 1 := ⟨fuel - 1, by omega⟩
    have htype := htidy.userType_eq (hname d mem_cons_self)
    obtain ⟨⟨s1, p, us1⟩, hitem⟩ := @copyinItem_mapped u us ue s (by rw [htype]; exact htidy.port)
      (by rwa [htype]) hmap
    obtain rfl : us1 = userNext d us := by
      rw [← htype]
      exact copyinItem_next hitem
    obtain ⟨⟨s2, rest⟩, hrest⟩ := @ih fuel s1 (forall_mem_cons.mp hname).2 hmap.mono (by omega)
    rw [walk_turn hlt hitem, hrest]
    exact ⟨_, rfl⟩

theorem SameItems.frame {m'' : Mem} (h : SameItems m m' us us' ds) :
    (∀ a, us' ≤ a → m'' a = m' a) → SameItems m m'' us us' ds := by
  induction h with
  | nil => exact fun _ => SameItems.nil
  | @cons us us' d ds hdesc hdata _ ih =>
    intro hfr
    obtain ⟨h1, h2⟩ := userNext_ge d us'
    refine SameItems.cons ?_ ?_ (ih fun a ha => hfr a (by omega))
    · rw [← hdesc]
      exact readBytes_eq fun a ha _ => hfr a ha
    · rw [← hdata]
      exact readBytes_eq fun a ha _ => hfr a (by omega)

/-- What `copyoutmsg` leaves when it gets through the items. -/
structure WroteBack (m : Mem) (u : User) (us us' ue : Nat) (ds : List MsgType) (s : Nat × User) :
    Prop where
  ends : s.1 + us = us' + ue
  mapped : s.2.mapped = u.mapped
  below : EqOn s.2.mem u.mem 0 us'
  same : SameItems m s.2.mem us us' ds

variable {keaddr : Nat}

theorem copyout_walk_eq (h : Items m ue us ds) : ∀ {fuel ks us' : Nat} {u : User},
    ks % 8 = 0 → us' % 4 = us % 4 → (∀ d ∈ ds, d.name < 2 ^ 8) → Laid m km us ks ds →
    (∀ p ∈ placedAt ks ds, p.taddr < keaddr) → keaddr ≤ kernelEnd ks ds →
    MappedOn u us' (us' + (ue - us)) → keaddr - ks ≤ fuel →
    ∃ s out, walk .stuck (copyoutItem km) keaddr fuel (us', u) ks = .ok (s, out) ∧
      WroteBack m u us us' ue ds s := by
  induction h with
  | nil =>
    intro fuel ks us' u _ _ _ _ _ hend _ _
    exact ⟨(us', u), [], walk_done hend, rfl, rfl, EqOn.refl _ _ _, SameItems.nil⟩
  | @cons us d ds htidy hnext hrest ih =>
    intro fuel ks us' u hks hmod hname hlaid hplaced hend hmap hfuel
    obtain ⟨hshift, hmod'⟩ := userNext_shift d hmod
    obtain ⟨h1, h2⟩ := userNext_ge d us'
    have hle := hrest.le
    cases hlaid with
    | cons hitem hlaid =>
      have hlt : ks < keaddr := hplaced ⟨ks, ks + 8⟩ mem_cons_self
      have hknext := le_kernelNext d ks
      have hread := readType_packType ((hitem.type ▸ userType_narrow m us : Narrow d).kernelType hitem.port)
        hitem.desc
      obtain ⟨hamount, hulength, -⟩ := kernelType_same km d ks
      obtain ⟨⟨s1, t, ks1⟩, hturn⟩ := @copyoutItem_mapped u us' ks km
        (by rw [hread, userNext, hamount, hulength, ← userNext]
            exact hmap.mono)
      obtain ⟨fuel, rfl⟩ : ∃ k, fuel = k + 1 := ⟨fuel - 1, by omega⟩
      obtain ⟨hus1, rfl, hmap1, hbelow1, hdesc, hdata⟩ := copyoutItem_spec hks hitem hturn
      obtain ⟨us1, u1⟩ := s1
      change us1 = userNext d us' at hus1
      subst hus1
      have hmapRest : MappedOn u1 (userNext d us') (userNext d us' + (ue - userNext d us)) := by
        intro a ha hb
        change u1.mapped = u.mapped at hmap1
        rw [hmap1]
        exact hmap a (by omega) (by omega)
      obtain ⟨s, out, hwalk, hends, hmapped, hbelow, hsame⟩ := @ih fuel (kernelNext d ks)
        (userNext d us') u1 (kernelNext_mod d ks) hmod'
        (forall_mem_cons.mp hname).2 hlaid
        (forall_mem_cons.mp hplaced).2 hend hmapRest (by omega)
      refine ⟨s, t :: out, by rw [walk_turn hlt hturn, hwalk], by omega, hmapped.trans hmap1, ?_, ?_⟩
      · exact hbelow.mono.trans hbelow1
      have htype := htidy.userType_eq (hname d mem_cons_self)
      have hback := htidy.encode_eq_iff.mpr (hname d mem_cons_self)
      rw [htype] at hback
      refine SameItems.cons ?_ ?_ hsame
      · rw [← hback, ← hdesc]
        exact readBytes_eq hbelow.mono
      · rw [← hdata]
        exact readBytes_eq hbelow.mono

theorem copyout_walk_below {fuel : Nat} : ∀ {ks : Nat} {s s' : Nat × User}
    {out : List MsgType}, walk .stuck (copyoutItem km) keaddr fuel s ks = .ok (s', out) →
    s.1 ≤ s'.1 ∧ EqOn s'.2.mem s.2.mem 0 s.1 := by
  induction fuel with
  | zero =>
    intro ks s s' out h
    rcases walk_cases h with ⟨_, rfl, _⟩ | ⟨_, _, _, _, _, hk, _⟩
    · exact ⟨le_rfl, EqOn.refl _ _ _⟩
    · cases hk
  | succ fuel ih =>
    intro ks s s' out h
    rcases walk_cases h with ⟨_, rfl, _⟩ | ⟨k, s1, _, _, _, hk, _, hturn, hrest, _⟩
    · exact ⟨le_rfl, EqOn.refl _ _ _⟩
    · cases hk
      obtain ⟨hle1, hbelow1⟩ := copyoutItem_below hturn
      obtain ⟨hle, hbelow⟩ := ih hrest
      exact ⟨hle1.trans hle, (hbelow.mono (le_refl 0) hle1).trans hbelow1⟩

theorem copyout_walk_same (h : Items m ue us ds) : ∀ {fuel fuel' ks us' : Nat} {u : User}
    {s : Nat × User} {out : List MsgType}, ks % 8 = 0 → us' % 4 = us % 4 → ue - us < 2 ^ 32 →
    ue - us ≤ fuel → Laid m km us ks (userItems m ue fuel us) →
    walk .stuck (copyoutItem km) keaddr fuel' (us', u) ks = .ok (s, out) →
    SameItems m s.2.mem us us' ds → (s.1 + us) % 2 ^ 32 = (us' + ue) % 2 ^ 32 →
    (∀ d ∈ ds, d.name < 2 ^ 8) ∧ ∀ p ∈ placedAt ks ds, p.taddr < keaddr := by
  induction h with
  | nil =>
    intros
    exact ⟨forall_mem_nil _, forall_mem_nil _⟩
  | @cons us d ds htidy hnext hrest ih =>
    intro fuel fuel' ks us' u s out hks hmod hsmall hfuel hlaid hwalk hsame hsize
    have hlt := Items.lt hnext
    have hpos := lt_userNext d us
    obtain ⟨fuel, rfl⟩ : ∃ k, fuel = k + 1 := ⟨fuel - 1, by omega⟩
    rw [userItems, if_pos hlt] at hlaid
    cases hlaid with
    | cons hitem hlaid =>
      rcases walk_cases hwalk with ⟨_, rfl, _⟩ | ⟨k, s1, t, ks1, rest, _, hks', hturn, hrun, _⟩
      · -- the loop has stopped short of an item: the size is too small
        exact absurd hsize (by dsimp only; omega)
      · obtain ⟨hus1, rfl, _, _, hdesc, _⟩ := copyoutItem_spec hks hitem hturn
        obtain ⟨us1, u1⟩ := s1
        change us1 = userNext (userType m us) us' at hus1
        subst hus1
        obtain ⟨_, hbelow⟩ := copyout_walk_below hrun
        obtain ⟨h3, h4⟩ := userNext_ge (userType m us) us'
        cases hsame with
        | cons hdesc' hdata' hsame =>
          have hlong : userAmount (userType m us) = userAmount d := by
            rw [userAmount, userAmount, ← htidy.desc, userDesc_longform]
          have hname : d.name < 2 ^ 8 := by
            rw [← htidy.encode_eq_iff, ← hdesc, ← hdesc', hlong]
            exact (readBytes_eq (hbelow.mono (zero_le _) (by dsimp only; omega))).symm
          have htype := htidy.userType_eq hname
          rw [htype] at hlaid hrun
          obtain ⟨hshift, hmod'⟩ := userNext_shift d hmod
          obtain ⟨hnames, hplaced⟩ := ih (kernelNext_mod d ks) hmod' (by omega) (by omega) hlaid hrun
            hsame (by omega)
          exact ⟨forall_mem_cons.mpr ⟨hname, hnames⟩, forall_mem_cons.mpr ⟨hks', hplaced⟩⟩

end

/-! ## Headers -/

section

variable {m km km' : Mem} {u u' : User} {umsg umsg' : Nat}

structure HeaderIn (m : Mem) (umsg : Nat) (km : Mem) : Prop where
  bits : readBytes km 0 4 = readBytes m umsg 4
  remotePort : readLe km 8 8 = readLe m (umsg + 8) 4
  localPort : readLe km 16 8 = readLe m (umsg + 12) 4
  seqnoAndId : readBytes km 24 8 = readBytes m (umsg + 16) 8

theorem HeaderIn.frame (h : HeaderIn m umsg km) (hlow : EqOn km' km 0 4) (hhigh : EqOn km' km 8 32) :
    HeaderIn m umsg km' where
  bits := (readBytes_eq hlow).trans h.bits
  remotePort := (readLe_eq hhigh.mono).trans h.remotePort
  localPort := (readLe_eq hhigh.mono).trans h.localPort
  seqnoAndId := (readBytes_eq hhigh.mono).trans h.seqnoAndId

theorem copyinHeader_eq_some (h : copyinHeader u umsg km = some km') : HeaderIn u.mem umsg km' := by
  unfold copyinHeader at h
  split at h
  next bits remote local_ rest hbits hremote hlocal hrest =>
    cases h
    cases copyin_eq_some hbits
    cases copyin_eq_some hremote
    cases copyin_eq_some hlocal
    cases copyin_eq_some hrest
    -- each write leaves the fields below it
    refine ⟨?_, ?_, ?_, ?_⟩
    · rw [readBytes_eq (eqOn_writeBytes _ 24 _ 0).mono, readBytes_eq (eqOn_writeLe _ 16 8 _ 0).mono,
        readBytes_eq (eqOn_writeLe _ 8 8 _ 0).mono]
      exact readBytes_writeBytes_readBytes ..
    · rw [readLe_eq (eqOn_writeBytes _ 24 _ 0).mono, readLe_eq (eqOn_writeLe _ 16 8 _ 0).mono]
      exact readLe_writeLe_of_lt _ 8 (readLe_wide u.mem (umsg + 8))
    · rw [readLe_eq (eqOn_writeBytes _ 24 _ 0).mono]
      exact readLe_writeLe_of_lt _ 16 (readLe_wide u.mem (umsg + 12))
    · exact readBytes_writeBytes_readBytes ..
  next => cases h

theorem copyinHeader_mapped (h : MappedOn u umsg (umsg + 24)) : ∃ km', copyinHeader u umsg km = some km' := by
  unfold copyinHeader
  rw [(h.mono : MappedOn u umsg (umsg + 4)).copyin,
    (h.mono : MappedOn u (umsg + 8) (umsg + 8 + 4)).copyin,
    (h.mono : MappedOn u (umsg + 12) (umsg + 12 + 4)).copyin,
    (h.mono : MappedOn u (umsg + 16) (umsg + 16 + 8)).copyin]
  exact ⟨_, rfl⟩

structure SameHeader (m m' : Mem) (umsg umsg' : Nat) : Prop where
  bits : readBytes m' umsg' 4 = readBytes m umsg 4
  remotePort : readBytes m' (umsg' + 8) 4 = readBytes m (umsg + 8) 4
  localPort : readBytes m' (umsg' + 12) 4 = readBytes m (umsg + 12) 4
  seqnoAndId : readBytes m' (umsg' + 16) 8 = readBytes m (umsg + 16) 8

theorem SameHeader.frame {m' m'' : Mem} (h : SameHeader m m' umsg umsg')
    (hlow : EqOn m'' m' umsg' (umsg' + 4)) (hhigh : EqOn m'' m' (umsg' + 8) (umsg' + 24)) :
    SameHeader m m'' umsg umsg' where
  bits := (readBytes_eq hlow).trans h.bits
  remotePort := (readBytes_eq hhigh.mono).trans h.remotePort
  localPort := (readBytes_eq hhigh.mono).trans h.localPort
  seqnoAndId := (readBytes_eq hhigh.mono).trans h.seqnoAndId

theorem copyoutHeader_spec (hin : HeaderIn m umsg km) (h : copyoutHeader km u umsg' = some u') :
    u'.mapped = u.mapped ∧ SameHeader m u'.mem umsg umsg' := by
  unfold copyoutHeader at h
  split at h
  · cases h
  rename_i u1 h1
  split at h
  · cases h
  rename_i u2 h2
  split at h
  · cases h
  rename_i u3 h3
  rw [leBytes_readLe_low hin.remotePort] at h2
  rw [leBytes_readLe_low hin.localPort] at h3
  obtain ⟨hmap1, _, hread1⟩ := copyout_spec h1
  obtain ⟨hmap2, hbelow2, hread2⟩ := copyout_spec h2
  obtain ⟨hmap3, hbelow3, hread3⟩ := copyout_spec h3
  obtain ⟨hmap, hbelow, hread⟩ := copyout_spec h
  rw [length_readBytes] at hread1 hread2 hread3 hread
  refine ⟨((hmap.trans hmap3).trans hmap2).trans hmap1, ?_, ?_, ?_, hread.trans hin.seqnoAndId⟩
  · rw [readBytes_eq hbelow.mono, readBytes_eq hbelow3.mono,
      readBytes_eq hbelow2.mono, hread1, hin.bits]
  · rw [readBytes_eq hbelow.mono, readBytes_eq hbelow3.mono, hread2]
  · rw [readBytes_eq hbelow.mono, hread3]

theorem copyoutHeader_mapped (h : MappedOn u umsg' (umsg' + 24)) :
    ∃ u', copyoutHeader km u umsg' = some u' := by
  unfold copyoutHeader
  rw [MappedOn.copyout (by rw [length_readBytes]; exact h.mono)]
  dsimp only
  rw [MappedOn.copyout (by rw [length_leBytes]; exact fun a h1 h2 => h a (by omega) (by omega))]
  dsimp only
  rw [MappedOn.copyout (by rw [length_leBytes]; exact fun a h1 h2 => h a (by omega) (by omega))]
  dsimp only
  rw [MappedOn.copyout (by rw [length_readBytes]; exact fun a h1 h2 => h a (by omega) (by omega))]
  exact ⟨_, rfl⟩

end

/-! ## Whole messages -/

section

variable {u u' : User} {umsg umsg' usize : Nat} {ds : List MsgType} {km : Mem}

theorem mappedOn_of_offset (h : ∀ i < usize, u.mapped (umsg + i)) : MappedOn u umsg (umsg + usize) := by
  intro a ha hb
  have := h (a - umsg) (by omega)
  rwa [show umsg + (a - umsg) = a by omega] at this

theorem WellFormed.le (h : WellFormed u umsg usize ds) : 24 ≤ usize := by
  have := h.items.le
  omega

theorem copyinmsg_mapped (h : WellFormed u umsg usize ds) (hname : ∀ d ∈ ds, d.name < 2 ^ 8) (km : Mem) :
    ∃ r, copyinmsg u umsg usize km = .ok r := by
  have hmap := mappedOn_of_offset h.mapped
  have hle := h.le
  obtain ⟨km1, hheader⟩ := @copyinHeader_mapped km u umsg hmap.mono
  obtain ⟨⟨⟨ks, km2⟩, placed⟩, hwalk⟩ := @copyin_walk_mapped u (umsg + 24) (umsg + usize) ds h.items usize
    (32, km1) hname hmap.mono (by omega)
  unfold copyinmsg
  rw [hheader]
  dsimp only
  by_cases hbody : usize > 24
  · rw [if_pos hbody, hwalk]
    exact ⟨_, rfl⟩
  · rw [if_neg hbody]
    exact ⟨_, rfl⟩

theorem copyoutmsg_eq_ok {ksize : Nat} (h : copyoutmsg km u umsg' ksize = .ok u') :
    ∃ u1 s out, copyoutHeader km u umsg' = some u1 ∧
      walk .stuck (copyoutItem km) ksize ksize (umsg' + 24, u1) 32 = .ok (s, out) ∧
      s.2.copyout (umsg' + 4) (leBytes 4 (s.1 - umsg')) = some u' := by
  unfold copyoutmsg at h
  split at h
  · cases h
  rename_i u1 hheader
  dsimp only at h
  split at h
  · cases h
  rename_i us u2 out hloop
  split at h
  · cases h
  rename_i u3 hsize
  cases h
  refine ⟨u1, (us, u2), out, hheader, ?_, hsize⟩
  split at hloop
  next => exact hloop
  next hsmall =>
    cases hloop
    exact walk_done (by omega)

theorem copyoutmsg_of_walk {ksize : Nat} {u1 : User} {s : Nat × User} {out : List MsgType}
    (hheader : copyoutHeader km u umsg' = some u1)
    (hwalk : walk .stuck (copyoutItem km) ksize ksize (umsg' + 24, u1) 32 = .ok (s, out))
    (hsize : s.2.copyout (umsg' + 4) (leBytes 4 (s.1 - umsg')) = some u') :
    copyoutmsg km u umsg' ksize = .ok u' := by
  unfold copyoutmsg
  rw [hheader]
  dsimp only
  have hloop : (if ksize > 32 then walk .stuck (copyoutItem km) ksize ksize (umsg' + 24, u1) 32
      else .ok ((umsg' + 24, u1), [])) = .ok (s, out) := by
    split
    next => exact hwalk
    next hsmall =>
      rw [walk_done (by omega)] at hwalk
      exact hwalk
  rw [hloop]
  dsimp only
  rw [hsize]

theorem copyinmsg_converted {km' : Mem} {placed : List Placed}
    (h : copyinmsg u umsg usize km = .ok (km', placed)) :
    HeaderIn u.mem umsg km' ∧ Laid u.mem km' (umsg + 24) 32 (messageItems u umsg usize) ∧
      msghSize km' = kernelEnd 32 (messageItems u umsg usize) % 2 ^ 32 := by
  obtain ⟨km1, km2, hheader, hwalk, rfl⟩ := copyinmsg_eq_ok h
  refine ⟨?_, hwalk.laid.setSize _, msghSize_writeLe _⟩
  have hin := copyinHeader_eq_some hheader
  have hkept : HeaderIn u.mem umsg km2 := hin.frame hwalk.below.mono hwalk.below.mono
  exact hkept.frame (eqOn_writeBytes _ _ _ _) fun _ _ _ => writeBytes_above (by rwa [length_leBytes])

theorem readLe_leBytes {m' : Mem} {a v : Nat} (h : readBytes m' a 4 = leBytes 4 v) :
    readLe m' a 4 = v % 2 ^ 32 := by
  rw [readLe, h, leNat_leBytes]
  rfl

def longName : User :=
  userOf (List.replicate 24 0 ++ leBytes 12 (2 ^ 28 + 2 ^ 29 + 0x102 * 2 ^ 32 + 32 * 2 ^ 48 + 2 ^ 64) ++
    [1, 2, 3, 4])

end

end Mach.Ipc.CopyUser
