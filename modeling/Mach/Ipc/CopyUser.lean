import Mach.Ipc.KmsgBody
import Mach.Lib.ByteMem

/-!
# Messages of a 32-bit user

`ipc/copy_user.c`, for a 64-bit kernel with 32-bit users (`USER32`). `copyinmsg` turns the
message of a user into one of the kernel and `copyoutmsg` does the opposite. The two forms
differ in their headers, in the type descriptors, in the size of ports and pointers and in
their alignment, 4 bytes or 8.

Addresses of the user are those of its memory; they have 32 bits, so that nothing that is
computed from them wraps in the 64 bits of the kernel. Addresses in a message of the kernel
are counted from its header, which is aligned. What `copyinmsg` did not write in the
message of the kernel, the padding, is as it was before.
-/

namespace Mach.Ipc.CopyUser

open Lib.ByteMem
open Kmsg (MsgType Abi portAny readType lengthWide afterType)
open Lib.WordMem (getField walk)

/-- The memory of a user, and where it is mapped. -/
structure User where
  mem : Mem
  mapped : Nat → Bool

/-- `copyin`. -/
def User.copyin (u : User) (a n : Nat) : Option (List UInt8) :=
  if ∀ i < n, u.mapped (a + i) then some (readBytes u.mem a n) else none

/-- `copyout`. -/
def User.copyout (u : User) (a : Nat) (l : List UInt8) : Option User :=
  if ∀ i < l.length, u.mapped (a + i) then some { u with mem := writeBytes u.mem a l } else none

/-- `mach_msg_user_align`. -/
def userAlign (x : Nat) : Nat := (x + 3) / 4 * 4

/-- `mach_msg_kernel_align`. -/
abbrev kernelAlign (x : Nat) : Nat := Abi.lp64.align x

inductive Failure
  | returned
  | stuck
  deriving DecidableEq

/-! ## Type descriptors -/

/-- `mach_msg_user_type_to_kernel`, of a `mach_msg_user_type_t`. -/
def userTypeToKernel (w : Nat) : MsgType where
  name := getField w 0 8
  size := getField w 8 8
  number := getField w 16 12
  isInline := getField w 28 1 = 1
  longform := getField w 29 1 = 1
  dealloc := getField w 30 1 = 1
  unused := 0
  blank := true

/-- `mach_msg_user_type_to_kernel_long`, of a `mach_msg_user_type_long_t`. The name has 16
bits there and 8 bits in the kernel. -/
def userTypeToKernelLong (w : Nat) : MsgType where
  name := getField w 32 16 % 2 ^ 8
  size := getField w 48 16
  number := getField w 64 32
  isInline := getField w 28 1 = 1
  longform := getField w 29 1 = 1
  dealloc := getField w 30 1 = 1
  unused := 0
  blank := true

def packType (t : MsgType) : Nat :=
  t.name % 2 ^ 8 + t.size % 2 ^ 16 * 2 ^ 8 + t.unused % 2 ^ 5 * 2 ^ 24 + t.isInline.toNat * 2 ^ 29 +
    t.longform.toNat * 2 ^ 30 + t.dealloc.toNat * 2 ^ 31 + t.number % 2 ^ 32 * 2 ^ 32

/-- `mach_msg_kernel_type_to_user`. -/
def kernelTypeToUser (t : MsgType) : Nat :=
  t.name % 2 ^ 8 + t.size % 2 ^ 8 * 2 ^ 8 + t.number % 2 ^ 12 * 2 ^ 16 + t.isInline.toNat * 2 ^ 28 +
    t.longform.toNat * 2 ^ 29 + t.dealloc.toNat * 2 ^ 30

/-- `mach_msg_kernel_type_to_user_long`. -/
def kernelTypeToUserLong (t : MsgType) : Nat :=
  t.isInline.toNat * 2 ^ 28 + t.longform.toNat * 2 ^ 29 + t.dealloc.toNat * 2 ^ 30 +
    t.name % 2 ^ 16 * 2 ^ 32 + t.size % 2 ^ 16 * 2 ^ 48 + t.number % 2 ^ 32 * 2 ^ 64

def words (km : Mem) : Lib.WordMem.Mem := fun a => readLe km a 8

/-! ## `copyinmsg` -/

/-- `copyin_unpack_msg_type`: the descriptor, as the kernel stores it, and its size. -/
def copyinUnpackMsgType (u : User) (us : Nat) : Option (MsgType × Nat) :=
  match u.copyin us 4 with
  | none => none
  | some b =>
    if (userTypeToKernel (leNat b)).longform then
      match u.copyin us 12 with
      | none => none
      | some b => some (userTypeToKernelLong (leNat b), 12)
    else some (userTypeToKernel (leNat b), 4)

def copyinPorts (u : User) : Nat → Nat → Nat → Mem → Option Mem
  | 0, _, _, km => some km
  | n + 1, us, ks, km =>
    match u.copyin us 4 with
    | none => none
    | some b => copyinPorts u n (us + 4) (ks + 8) (writeLe km ks 8 (leNat b))

/-- The data of an item, at `us` and `ks`; its descriptor is at `taddr`. -/
def copyinData (u : User) (ueaddr : Nat) (t : MsgType) (taddr us ks : Nat) (km : Mem) :
    Option (Nat × Nat × Mem) :=
  if t.isInline then
    if portAny t.name then
      if t.size ≠ 32 then none
      else if us + 4 * t.number > ueaddr then none
      else
        -- `adjust_msg_type_size`
        let km := writeLe km taddr 8 (packType { t with size := t.size + 32 })
        (copyinPorts u t.number us ks km).map fun km => (us + 4 * t.number, ks + 8 * t.number, km)
    else
      let n := t.size / 8
      if us + n * t.number > ueaddr then none
      else
        (u.copyin us (n * t.number)).map fun b =>
          (us + n * t.number, ks + n * t.number, writeBytes km ks b)
  else if us + 4 > ueaddr then none
  else if portAny t.name ∧ t.size ≠ 32 then none
  else (u.copyin us 4).map fun b => (us + 4, ks + 8, writeLe km ks 8 (leNat b))

/-- Where an item is in a message of the kernel: its descriptor and its data. -/
structure Placed where
  taddr : Nat
  saddr : Nat
  deriving DecidableEq

/-- One turn of the loop of `copyinmsg`. -/
def copyinItem (u : User) (ueaddr : Nat) (s : Nat × Mem) (us : Nat) :
    Except Failure ((Nat × Mem) × Placed × Nat) :=
  let (ks, km) := s
  match copyinUnpackMsgType u us with
  | none => .error .returned
  | some (t, userAmount) =>
    let km := writeLe km ks 8 (packType t)
    let saddr := kernelAlign (ks + 8)
    match copyinData u ueaddr t ks (userAlign (us + userAmount)) saddr km with
    | none => .error .returned
    | some (us', ks', km) => .ok ((kernelAlign ks', km), ⟨ks, saddr⟩, userAlign us')

/-- The fields of the header, without `msgh_size`. -/
def copyinHeader (u : User) (umsg : Nat) (km : Mem) : Option Mem :=
  match u.copyin umsg 4, u.copyin (umsg + 8) 4, u.copyin (umsg + 12) 4, u.copyin (umsg + 16) 8 with
  | some bits, some remote, some local_, some rest =>
    some (writeBytes (writeLe (writeLe (writeBytes km 0 bits) 8 8 (leNat remote)) 16 8 (leNat local_))
      24 rest)
  | _, _, _, _ => none

/-- `copyinmsg`, with the items it has converted. -/
def copyinmsg (u : User) (umsg usize : Nat) (km : Mem) : Except Failure (Mem × List Placed) :=
  match copyinHeader u umsg km with
  | none => .error .returned
  | some km =>
    let ueaddr := umsg + usize
    -- there is another item while `usaddr <= ueaddr - 4`
    let r := if usize > 24 then
        walk .stuck (copyinItem u ueaddr) (ueaddr - 3) usize (32, km) (umsg + 24)
      else .ok ((32, km), [])
    match r with
    | .error e => .error e
    | .ok ((ks, km), items) => .ok (writeLe km 4 4 ks, items)

/-- `msgh_size` of a message of the kernel. -/
def msghSize (km : Mem) : Nat := readLe km 4 4

/-! ## `copyoutmsg` -/

/-- The descriptor that `copyout_unpack_msg_type` writes. -/
def copyoutType (t : MsgType) : List UInt8 :=
  let t := if portAny t.name && t.isInline then { t with size := 32 } else t
  if t.longform then leBytes 12 (kernelTypeToUserLong t) else leBytes 4 (kernelTypeToUser t)

def copyoutPorts (km : Mem) : Nat → Nat → Nat → User → Option User
  | 0, _, _, u => some u
  | n + 1, ks, us, u =>
    match u.copyout us (leBytes 4 (readLe km ks 8)) with
    | none => none
    | some u => copyoutPorts km n (ks + 8) (us + 4) u

def copyoutData (km : Mem) (t : MsgType) (ks us : Nat) (u : User) : Option (Nat × Nat × User) :=
  if t.isInline then
    if portAny t.name then
      (copyoutPorts km t.number ks us u).map fun u => (ks + 8 * t.number, us + 4 * t.number, u)
    else
      let n := t.size / 8
      (u.copyout us (readBytes km ks (n * t.number))).map fun u =>
        (ks + n * t.number, us + n * t.number, u)
  else (u.copyout us (leBytes 4 (readLe km ks 8))).map fun u => (ks + 8, us + 4, u)

/-- One turn of the loop of `copyoutmsg`. -/
def copyoutItem (km : Mem) (s : Nat × User) (ks : Nat) :
    Except Failure ((Nat × User) × MsgType × Nat) :=
  let (us, u) := s
  let t := readType .lp64 (words km) ks
  match u.copyout us (copyoutType t) with
  | none => .error .returned
  | some u =>
    let userAmount := if t.longform then 12 else 4
    match copyoutData km t (kernelAlign (ks + 8)) (userAlign (us + userAmount)) u with
    | none => .error .returned
    | some (ks', us', u) => .ok ((userAlign us', u), t, kernelAlign ks')

def copyoutHeader (km : Mem) (u : User) (umsg : Nat) : Option User :=
  match u.copyout umsg (readBytes km 0 4) with
  | none => none
  | some u =>
    match u.copyout (umsg + 8) (leBytes 4 (readLe km 8 8)) with
    | none => none
    | some u =>
      match u.copyout (umsg + 12) (leBytes 4 (readLe km 16 8)) with
      | none => none
      | some u => u.copyout (umsg + 16) (readBytes km 24 8)

/-- `copyoutmsg`. -/
def copyoutmsg (km : Mem) (u : User) (umsg ksize : Nat) : Except Failure User :=
  match copyoutHeader km u umsg with
  | none => .error .returned
  | some u =>
    let r := if ksize > 32 then walk .stuck (copyoutItem km) ksize ksize (umsg + 24, u) 32
      else .ok ((umsg + 24, u), [])
    match r with
    | .error e => .error e
    | .ok ((us, u), _) =>
      match u.copyout (umsg + 4) (leBytes 4 (us - umsg)) with
      | none => .error .returned
      | some u => .ok u

/-! ## The items of `ipc_kmsg_copyin_body` -/

/-- The item boundaries of `ipc_kmsg_copyin_body`, without its checks on types: where the
item at `taddr` is, and where the next one is. -/
def bodyItem (km : Mem) (eaddr : Nat) (_ : Nat) (taddr : Nat) : Except Failure (Nat × Placed × Nat) :=
  let t := readType .lp64 (words km) taddr
  let saddr := afterType .lp64 t taddr
  let amount := if t.isInline then lengthWide .lp64 t.number t.size else 8
  if eaddr - taddr < 8 ∨ eaddr - saddr < amount then .error .returned
  else
    let next := kernelAlign (saddr + amount)
    .ok (next, ⟨taddr, saddr⟩, next)

def bodyItems (km : Mem) : Except Failure (Nat × List Placed) :=
  walk .stuck (bodyItem km (msghSize km)) (msghSize km) (msghSize km) 32 32

end Mach.Ipc.CopyUser
