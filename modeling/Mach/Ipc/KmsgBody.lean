import Mach.Lib.WordMem

/-!
# The body of a kernel message

The body is a sequence of items: a type descriptor (`mach_msg_type_t`, or the
long form), then the data itself or a pointer to it, padded to the word. Three
loops of `ipc/ipc_kmsg.c` walk it: `ipc_kmsg_copyin_body` turns a user's body into
a kernel body and acquires port rights and memory, `ipc_kmsg_copyout_body` undoes
that for a receiver, and `ipc_kmsg_clean_body` releases everything when a message
is destroyed.

Both configurations of the source are modelled, the 32-bit one and `__LP64__`:
they differ in the layout of descriptors and in the width of `vm_size_t`. Addresses
are offsets from the end of the message header, which is aligned. What the loops
ask of the rest of the kernel — `ipc_object_copyin`, the allocators, the user's
memory — is a parameter (`World`).
-/

namespace Mach.Ipc.Kmsg

open Lib.WordMem Function

inductive Abi
  | i386
  | lp64
  deriving DecidableEq

namespace Abi

/-- `sizeof(uintptr_t)`: the size of a pointer and of a `mach_port_t`, and
`MACH_MSG_KERNEL_ALIGNMENT`. -/
def word : Abi → Nat
  | i386 => 4
  | lp64 => 8

/-- The width of `vm_size_t`. -/
def vmBits : Abi → Nat
  | i386 => 32
  | lp64 => 64

/-- `sizeof(mach_msg_type_t)`. -/
def shortSize : Abi → Nat
  | i386 => 4
  | lp64 => 8

/-- `sizeof(mach_msg_type_long_t)`. -/
def longSize : Abi → Nat
  | i386 => 12
  | lp64 => 8

/-- `mach_msg_kernel_align`. -/
def align (abi : Abi) (x : Nat) : Nat := (x + (abi.word - 1)) / abi.word * abi.word

end Abi

/-! ## Type descriptors -/

/-- What the loops read of a descriptor. `blank` says that the name, size and
number in the header of a 32-bit long form are zero. -/
structure MsgType where
  name : Nat
  size : Nat
  number : Nat
  unused : Nat
  isInline : Bool
  longform : Bool
  dealloc : Bool
  blank : Bool
  deriving DecidableEq

/-- The bit fields of a descriptor at `a`. -/
def readType (abi : Abi) (m : Mem) (a : Nat) : MsgType :=
  match abi with
  | .lp64 =>
    { name := getField (m a) 0 8
      size := getField (m a) 8 16
      unused := getField (m a) 24 5
      isInline := getField (m a) 29 1 = 1
      longform := getField (m a) 30 1 = 1
      dealloc := getField (m a) 31 1 = 1
      number := getField (m a) 32 32
      blank := true }
  | .i386 =>
    let longform : Bool := getField (m a) 29 1 = 1
    { name := if longform then getField (m (a + 4)) 0 16 else getField (m a) 0 8
      size := if longform then getField (m (a + 4)) 16 16 else getField (m a) 8 8
      number := if longform then getField (m (a + 8)) 0 32 else getField (m a) 16 12
      isInline := getField (m a) 28 1 = 1
      longform := longform
      dealloc := getField (m a) 30 1 = 1
      unused := getField (m a) 31 1
      blank := getField (m a) 0 8 = 0 ∧ getField (m a) 8 8 = 0 ∧ getField (m a) 16 12 = 0 }

/-- `msgt_name = name`, or `msgtl_name` in the long form. -/
def setName (abi : Abi) (m : Mem) (a : Nat) (longform : Bool) (name : Nat) : Mem :=
  match abi, longform with
  | .i386, true => update m (a + 4) (setField (m (a + 4)) 0 16 name)
  | _, _ => update m a (setField (m a) 0 8 name)

def setSize (abi : Abi) (m : Mem) (a : Nat) (longform : Bool) (size : Nat) : Mem :=
  match abi, longform with
  | .lp64, _ => update m a (setField (m a) 8 16 size)
  | .i386, true => update m (a + 4) (setField (m (a + 4)) 16 16 size)
  | .i386, false => update m a (setField (m a) 8 8 size)

def setDeallocate (abi : Abi) (m : Mem) (a : Nat) (flag : Bool) : Mem :=
  match abi with
  | .lp64 => update m a (setField (m a) 31 1 flag.toNat)
  | .i386 => update m a (setField (m a) 30 1 flag.toNat)

/-- The address after the descriptor at `a`. The sizes of the descriptors are
multiples of the word, so the source's realignment is never needed. -/
def afterType (abi : Abi) (t : MsgType) (a : Nat) : Nat :=
  let n := if t.longform then abi.longSize else abi.shortSize
  if n % abi.word ≠ 0 then abi.align (a + n) else a + n

/-- `MACH_MSG_TYPE_PORT_ANY`. -/
def portAny (name : Nat) : Bool := decide (16 ≤ name) && decide (name ≤ 21)

/-- `ipc_object_copyin_type`, on the port types. -/
def copyinType (name : Nat) : Nat :=
  if name = 16 then 16 else if name = 18 ∨ name = 21 then 18 else 17

/-- `length = (((uint64_t) number * size) + 7) >> 3`, as a `vm_size_t`: what
copyin and copyout compute. -/
def lengthWide (abi : Abi) (number size : Nat) : Nat :=
  ((number * size) % 2 ^ 64 + 7) % 2 ^ 64 / 8 % 2 ^ abi.vmBits

/-- `length = ((number * size) + 7) >> 3` in `unsigned int`: what the cleaning
loops compute. -/
def lengthNarrow (number size : Nat) : Nat :=
  ((number * size) % 2 ^ 32 + 7) % 2 ^ 32 / 8

/-! ## State and outcome -/

/-- The message body, the kernel memory regions it points to, and the address of
the next region (never null). -/
structure Body where
  mem : Mem
  heap : Nat → Mem
  fresh : Nat

inductive SendError
  | msgTooSmall | invalidType | invalidMemory | invalidRight
  | fault
  | stuck
  deriving DecidableEq

/-- Where an item lies: its descriptor, its data (or the pointer to it), the
length of the data, and what kind it is. -/
structure Item where
  taddr : Nat
  saddr : Nat
  length : Nat
  isInline : Bool
  isPort : Bool
  deriving DecidableEq

/-- Memory a message carries: a `kalloc`ed array of ports with its length, or a
`vm_map_copy_t`. -/
inductive Region
  | kalloc (data length : Nat)
  | copy (data : Nat)
  deriving DecidableEq

def Region.data : Region → Nat
  | .kalloc data _ => data
  | .copy data => data

/-- An item with the port rights (object and `msgt_name`) and the memory that
were acquired or released for it. -/
structure Handled where
  item : Item
  rights : List (Nat × Nat)
  regions : List Region
  deriving DecidableEq

/-- What the loops ask of the rest of the kernel. An item is identified by its
address. -/
structure World where
  /-- `ipc_object_copyin` of the `i`-th name of an item, with its disposition -/
  right : (taddr i name disposition : Nat) → Option Nat
  memory : (taddr : Nat) → Bool
  /-- the `i`-th word of an out-of-line array of names -/
  userName : (taddr i : Nat) → Nat
  allocate : (taddr : Nat) → Option Nat
  /-- the name the receiver gets for the `i`-th port of an item -/
  outName : (taddr i : Nat) → Nat

/-- `IO_VALID`: neither `IO_NULL` nor `IO_DEAD`. -/
def ioValid (abi : Abi) (object : Nat) : Bool :=
  decide (object ≠ 0) && decide (object ≠ 2 ^ (8 * abi.word) - 1)

/-- `MACH_PORT_NAME_VALID`. -/
def nameValid (name : Nat) : Bool := decide (name ≠ 0) && decide (name ≠ 2 ^ 32 - 1)

def invalidNameToPort (abi : Abi) (name : Nat) : Nat :=
  if name = 0 then 0 else 2 ^ (8 * abi.word) - 1

def rightsOf (abi : Abi) (name : Nat) (objects : List Nat) : List (Nat × Nat) :=
  (objects.filter (ioValid abi)).map fun o => (o, name)

/-! ## `ipc_kmsg_copyin_body` -/

def copyinPorts (abi : Abi) (right : Nat → Nat → Option Nat) : Nat → List Nat → Option (List Nat)
  | _, [] => some []
  | i, w :: ws =>
    let name := w % 2 ^ 32
    if nameValid name then
      match right i name with
      | none => none
      | some object => (copyinPorts abi right (i + 1) ws).map (object :: ·)
    else (copyinPorts abi right (i + 1) ws).map (invalidNameToPort abi name :: ·)

def typeOk (abi : Abi) (t : MsgType) : Bool :=
  !((portAny t.name && !t.isInline && decide (t.size ≠ 32)) ||
    (portAny t.name && t.isInline && decide (t.size ≠ 8 * abi.word)) ||
    (t.longform && !t.blank) || decide (t.unused ≠ 0) || (t.dealloc && t.isInline))

def copyinInline (abi : Abi) (w : World) (eaddr : Nat) (b : Body) (taddr : Nat) (t : MsgType) :
    Except SendError (Body × Handled × Nat) :=
  let saddr := afterType abi t taddr
  let length := lengthWide abi t.number t.size
  let next := abi.align (saddr + length)
  if eaddr - saddr < length then .error .msgTooSmall
  else if portAny t.name then
    if length < t.number * abi.word then .error .fault
    else
      let names := readArray b.mem saddr abi.word t.number
      match copyinPorts abi (fun i n => w.right taddr i n t.name) 0 names with
      | none => .error .invalidRight
      | some objects =>
        let mem := setName abi b.mem taddr t.longform (copyinType t.name)
        .ok ({ b with mem := writeArray mem saddr abi.word objects },
          ⟨⟨taddr, saddr, length, true, true⟩, rightsOf abi (copyinType t.name) objects, []⟩, next)
  else .ok (b, ⟨⟨taddr, saddr, length, true, false⟩, [], []⟩, next)

/-- The length of an out-of-line array once it is an array of `mach_port_t`. -/
def portsLength (abi : Abi) (t : MsgType) : Nat :=
  match abi with
  | .lp64 => abi.word * t.number
  | .i386 => lengthWide abi t.number t.size

def widenSize (abi : Abi) (m : Mem) (taddr : Nat) (t : MsgType) : Mem :=
  match abi with
  | .lp64 => setSize abi m taddr t.longform 64
  | .i386 => m

def copyinOol (abi : Abi) (w : World) (eaddr : Nat) (b : Body) (taddr : Nat) (t : MsgType) :
    Except SendError (Body × Handled × Nat) :=
  let saddr := afterType abi t taddr
  let length := lengthWide abi t.number t.size
  let next := abi.align (saddr + abi.word)
  if eaddr - saddr < abi.word then .error .msgTooSmall
  else if length = 0 then
    -- data = 0
    if portAny t.name then
      if t.number ≠ 0 then .error .fault
      else
        let mem := setName abi b.mem taddr t.longform (copyinType t.name)
        .ok ({ b with mem := update mem saddr 0 },
          ⟨⟨taddr, saddr, 0, false, true⟩, [], []⟩, next)
    else
      .ok ({ b with mem := update b.mem saddr 0 },
        ⟨⟨taddr, saddr, 0, false, false⟩, [], []⟩, next)
  else if ¬ w.memory taddr then .error .invalidMemory
  else if portAny t.name then
    let length := portsLength abi t
    if length < t.number * abi.word then .error .fault
    else
      let names := readArray (w.userName taddr) 0 1 t.number
      match copyinPorts abi (fun i n => w.right taddr i n t.name) 0 names with
      | none => .error .invalidRight
      | some objects =>
        let mem := setName abi (widenSize abi b.mem taddr t) taddr t.longform (copyinType t.name)
        .ok (⟨update mem saddr b.fresh,
            update b.heap b.fresh (writeArray (b.heap b.fresh) 0 1 objects),
            b.fresh + 1⟩,
          ⟨⟨taddr, saddr, length, false, true⟩, rightsOf abi (copyinType t.name) objects,
            [.kalloc b.fresh length]⟩, next)
  else
    .ok ({ b with mem := update b.mem saddr b.fresh, fresh := b.fresh + 1 },
      ⟨⟨taddr, saddr, length, false, false⟩, [], [.copy b.fresh]⟩, next)

/-- One turn of the loop of `ipc_kmsg_copyin_body`. -/
def copyinItem (abi : Abi) (w : World) (eaddr : Nat) (b : Body) (taddr : Nat) :
    Except SendError (Body × Handled × Nat) :=
  let t := readType abi b.mem taddr
  if eaddr - taddr < abi.shortSize ∨ (t.longform ∧ eaddr - taddr < abi.longSize) then
    .error .msgTooSmall
  else if ¬ typeOk abi t then .error .invalidType
  else if t.isInline then copyinInline abi w eaddr b taddr t
  else copyinOol abi w eaddr b taddr t

/-- `ipc_kmsg_copyin_body`, on the body of a message that ends at `eaddr`. -/
def ipcKmsgCopyinBody (abi : Abi) (w : World) (eaddr : Nat) (b : Body) :
    Except SendError (Body × List Handled) :=
  walk .stuck (copyinItem abi w eaddr) eaddr eaddr b 0

/-! ## `ipc_kmsg_clean_body` -/

def trimNumber (eaddr saddr word : Nat) : Nat → Nat
  | 0 => 0
  | n + 1 => if eaddr < saddr + (n + 1) * word then trimNumber eaddr saddr word n else n + 1

def cleanItem (abi : Abi) (eaddr : Nat) (b : Body) (taddr : Nat) :
    Except SendError (Body × Handled × Nat) :=
  let t := readType abi b.mem taddr
  let saddr := afterType abi t taddr
  let length := lengthNarrow t.number t.size
  if t.isInline then
    let rights :=
      if portAny t.name then
        rightsOf abi t.name
          (readArray b.mem saddr abi.word (trimNumber eaddr saddr abi.word t.number))
      else []
    .ok (b, ⟨⟨taddr, saddr, length, true, portAny t.name⟩, rights, []⟩,
      abi.align (saddr + length))
  else
    let data := b.mem saddr
    let rights :=
      if portAny t.name then rightsOf abi t.name (readArray (b.heap data) 0 1 t.number) else []
    let regions :=
      if length = 0 then []
      else if portAny t.name then [.kalloc data length]
      else [.copy data]
    .ok (b, ⟨⟨taddr, saddr, length, false, portAny t.name⟩, rights, regions⟩,
      abi.align (saddr + abi.word))

/-- `ipc_kmsg_clean_body`, from the start of the body. -/
def ipcKmsgCleanBody (abi : Abi) (eaddr : Nat) (b : Body) :
    Except SendError (Body × List Handled) :=
  walk .stuck (cleanItem abi eaddr) eaddr eaddr b 0

/-! ## `ipc_kmsg_copyout_body` -/

/-- Out-of-line data: the memory with the size the receiver sees, and the address
of the data. On 64 bits an array of ports becomes an array of names again. A failure
to allocate memory leaves a size of zero and a null pointer. -/
def copyoutOol (abi : Abi) (w : World) (m : Mem) (taddr : Nat) (t : MsgType) : Mem × Nat :=
  let narrowed := match abi, portAny t.name with
    | .lp64, true => setSize abi m taddr t.longform 32
    | _, _ => m
  if lengthWide abi t.number t.size = 0 then (narrowed, 0)
  else
    match w.allocate taddr with
    | none => (setSize abi m taddr t.longform 0, 0)
    | some addr => (narrowed, addr)

/-- One turn of the loop of `ipc_kmsg_copyout_body`. The descriptor and the data
are overwritten for the receiver; failures do not end the loop. -/
def copyoutItem (abi : Abi) (w : World) (b : Body) (taddr : Nat) :
    Except SendError (Body × Item × Nat) :=
  let t := readType abi b.mem taddr
  let saddr := afterType abi t taddr
  let length := lengthWide abi t.number t.size
  let item : Item := ⟨taddr, saddr, length, t.isInline, portAny t.name⟩
  if t.isInline then
    let mem := if portAny t.name then
        writeArray b.mem saddr abi.word (readArray (w.outName taddr) 0 1 t.number)
      else b.mem
    .ok ({ b with mem := setDeallocate abi mem taddr false }, item, abi.align (saddr + length))
  else
    let (mem, addr) := copyoutOol abi w b.mem taddr t
    .ok ({ b with mem := update (setDeallocate abi mem taddr true) saddr addr }, item,
      abi.align (saddr + abi.word))

/-- `ipc_kmsg_copyout_body`. -/
def ipcKmsgCopyoutBody (abi : Abi) (w : World) (eaddr : Nat) (b : Body) :
    Except SendError (Body × List Item) :=
  walk .stuck (copyoutItem abi w) eaddr eaddr b 0

end Mach.Ipc.Kmsg
