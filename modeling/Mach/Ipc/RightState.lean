import Mathlib.Algebra.Group.Nat.Defs
import Mathlib.Data.Finset.Insert

/-!
# Ports, spaces and the rights between them

The state that `ipc/ipc_right.c` and `ipc/ipc_port.c` work on. A space maps names to
entries; an entry records a right: its type, the number of user references, the port
or port set and the index of a dead-name request. A port counts its send rights and
send-once rights, wherever they are, and holds send-once rights itself: those to be
used for notifications.

Counters are numbers of 32 bits. An entry is identified by its space and its name, the
fields of `ie_bits` are a record, and `ip_receiver`, `ip_destination` and
`ip_timestamp`, which share their memory, are one field. The ids of ports are never
used twice, since a port is freed when nothing refers to it any more.
-/

namespace Mach.Ipc.Rights

open Function

abbrev PortId := Nat
abbrev PsetId := Nat
abbrev SpaceId := Nat

/-- `mach_port_name_t`; 0 is `MACH_PORT_NULL`. -/
abbrev Name := Nat

abbrev Key := SpaceId × Name

/-- `natural_t` and the other counters. -/
abbrev Count := BitVec 32

/-- `MACH_PORT_NAME_VALID`. -/
def nameValid (name : Name) : Prop := name ≠ 0 ∧ name ≠ 2 ^ 32 - 1

instance (name : Name) : Decidable (nameValid name) := inferInstanceAs (Decidable (_ ∧ _))

/-! ## Entries -/

/-- `IE_BITS_TYPE`, as a `switch` over it tells the types apart. -/
inductive PortType
  | none | send | receive | sendReceive | sendOnce | portSet | deadName | strange
  deriving DecidableEq

/-- `ie_bits`: 16 bits of user references, 5 of type and `IE_BITS_MAREQUEST`. -/
structure Bits where
  urefs : Nat
  send : Bool
  receive : Bool
  sendOnce : Bool
  portSet : Bool
  deadName : Bool
  marequest : Bool
  deriving DecidableEq

namespace Bits

def zero : Bits := ⟨0, false, false, false, false, false, false⟩

def type (b : Bits) : PortType :=
  match b.send, b.receive, b.sendOnce, b.portSet, b.deadName with
  | false, false, false, false, false => .none
  | true, false, false, false, false => .send
  | false, true, false, false, false => .receive
  | true, true, false, false, false => .sendReceive
  | false, false, true, false, false => .sendOnce
  | false, false, false, true, false => .portSet
  | false, false, false, false, true => .deadName
  | _, _, _, _, _ => .strange

/-- `MACH_PORT_TYPE_SEND_RIGHTS`. -/
def sendRights (b : Bits) : Bool := b.send || b.sendOnce

/-- `MACH_PORT_TYPE_PORT_RIGHTS`. -/
def portRights (b : Bits) : Bool := b.send || b.sendOnce || b.receive

/-- The type becomes `MACH_PORT_TYPE_DEAD_NAME`. -/
def toDeadName (b : Bits) : Bits :=
  ⟨b.urefs, false, false, false, false, true, b.marequest⟩

end Bits

/-- `MACH_PORT_UREFS_MAX`. -/
def urefsMax : Nat := 2 ^ 16 - 1

def urefsUnderflow (urefs : Nat) (delta : Int) : Prop := delta < 0 ∧ -delta > urefs

def urefsOverflow (urefs : Nat) (delta : Int) : Prop := delta > 0 ∧ urefs + delta > urefsMax

instance (urefs : Nat) (delta : Int) : Decidable (urefsUnderflow urefs delta) :=
  inferInstanceAs (Decidable (_ ∧ _))

instance (urefs : Nat) (delta : Int) : Decidable (urefsOverflow urefs delta) :=
  inferInstanceAs (Decidable (_ ∧ _))

/-- What `ie_object` points to. -/
inductive Object
  | port (p : PortId)
  | pset (s : PsetId)
  deriving DecidableEq

/-- `struct ipc_entry`. -/
structure Entry where
  bits : Bits
  object : Option Object
  request : Nat
  deriving DecidableEq

namespace Entry

def blank : Entry := ⟨.zero, .none, 0⟩

/-- The cast of `ie_object` to a port. -/
def port (e : Entry) : Option PortId :=
  match e.object with
  | some (.port p) => some p
  | _ => none

end Entry

/-! ## Ports -/

/-- An element of `ip_dnrequests`. -/
inductive DnSlot
  | free (next : Nat)
  | used (name : Name) (soright : PortId)
  deriving DecidableEq

/-- `ip_dnrequests`. `next` is the head of the free list; slot `i` is the `i`-th element
of the list, counted from 1. -/
structure DnTable where
  next : Nat
  slots : List DnSlot
  deriving DecidableEq

inductive Special
  | kernel | reply
  deriving DecidableEq

/-- The union of `ip_receiver`, `ip_destination` and `ip_timestamp`. -/
inductive PortData
  | receiver (sp : SpaceId)
  | special (sp : Special)
  | destination (dest : Option PortId)
  | timestamp (t : Count)
  deriving DecidableEq

/-- `struct ipc_port`, without its queues. -/
structure Port where
  active : Bool
  references : Count
  receiverName : Name
  data : PortData
  pset : Option PsetId
  mscount : Count
  srights : Count
  sorights : Count
  nsrequest : Option PortId
  pdrequest : Option PortId
  dnrequests : Option DnTable
  deriving DecidableEq

/-- `struct ipc_pset`, without its queue. -/
structure Pset where
  active : Bool
  references : Count
  localName : Name
  deriving DecidableEq

/-- `struct ipc_space`, without its entries. -/
structure Space where
  isActive : Bool
  isReverseMap : PortId → Option Name

/-- `struct ipc_marequest`. -/
structure Marequest where
  space : SpaceId
  name : Name
  soright : PortId
  deriving DecidableEq

/-- The messages of `ipc/ipc_notify.c`, with the send-once right they are sent to. -/
inductive Notification
  | portDeleted (soright : PortId) (name : Name)
  | msgAccepted (soright : PortId) (name : Name)
  | portDestroyed (soright right : PortId)
  | noSenders (soright : PortId) (mscount : Count)
  | sendOnce (soright : PortId)
  | deadName (soright : PortId) (name : Name)
  deriving DecidableEq

/-! ## The state -/

structure State where
  ports : Finset PortId
  port : PortId → Port
  pset : PsetId → Pset
  space : SpaceId → Space
  entry : Key → Entry
  marequest : Nat → Marequest
  marequestTable : List Nat
  /-- `ipc_port_timestamp_data` -/
  timestamp : Count
  notifications : List Notification

namespace State

def setPort (s : State) (p : PortId) (x : Port) : State :=
  { s with port := update s.port p x }

def setPset (s : State) (i : PsetId) (x : Pset) : State :=
  { s with pset := update s.pset i x }

def setEntry (s : State) (k : Key) (e : Entry) : State :=
  { s with entry := update s.entry k e }

def setReverse (s : State) (sp : SpaceId) (p : PortId) (name : Option Name) : State :=
  { s with space := update s.space sp { s.space sp with
      isReverseMap := update (s.space sp).isReverseMap p name } }

def notify (s : State) (n : Notification) : State :=
  { s with notifications := n :: s.notifications }

def notifyIf (s : State) : Option Notification → State
  | none => s
  | some n => s.notify n

section

variable (s : State) (p q : PortId) (x : Port) (k : Key) (e : Entry) (sp : SpaceId)
  (m : Option Name)

@[simp] theorem setPort_ports : (s.setPort p x).ports = s.ports := rfl
@[simp] theorem setPort_space : (s.setPort p x).space = s.space := rfl
@[simp] theorem setPort_entry : (s.setPort p x).entry = s.entry := rfl
@[simp] theorem setPort_self : (s.setPort p x).port p = x := update_self ..
theorem setPort_of_ne (h : q ≠ p) : (s.setPort p x).port q = s.port q := update_of_ne h ..

@[elab_as_elim]
theorem setPort_cases {motive : PortId → Port → Prop} (self : motive p x)
    (other : ∀ q ≠ p, motive q (s.port q)) (q : PortId) : motive q ((s.setPort p x).port q) :=
  (forall_update_iff s.port motive).mpr ⟨self, other⟩ q

@[simp] theorem setEntry_space : (s.setEntry k e).space = s.space := rfl
@[simp] theorem setEntry_port : (s.setEntry k e).port = s.port := rfl
@[simp] theorem setEntry_self : (s.setEntry k e).entry k = e := update_self ..

@[elab_as_elim]
theorem setEntry_cases {motive : Key → Entry → Prop} (self : motive k e)
    (other : ∀ k' ≠ k, motive k' (s.entry k')) (k' : Key) : motive k' ((s.setEntry k e).entry k') :=
  (forall_update_iff s.entry motive).mpr ⟨self, other⟩ k'

@[simp] theorem setReverse_entry : (s.setReverse sp p m).entry = s.entry := rfl

end

/-- `ip_reference`. -/
def reference (s : State) (p : PortId) : State :=
  s.setPort p { s.port p with references := (s.port p).references + 1 }

/-- `ip_release`. -/
def release (s : State) (p : PortId) : State :=
  s.setPort p { s.port p with references := (s.port p).references - 1 }

end State

/-- What a kernel function returns. A `fault` stands for the use of a null pointer or
of an object of the wrong kind. -/
inductive KernReturn
  | success | invalidTask | invalidName | invalidRight | invalidValue | urefsOverflow
  | invalidCapability | rightExists | nameExists | resourceShortage | noSpace | invalidArgument
  | fault
  deriving DecidableEq

/-! ## Reverse map -/

/-- `ipc_reverse_insert`: `rdxtree_insert` on `is_reverse_map`, with memory for the nodes
of the tree or without. -/
def ipcReverseInsert (s : State) (sp : SpaceId) (p : PortId) (name : Name) (nomem : Bool) : State :=
  match (s.space sp).isReverseMap p with
  | some _ => s
  | none => if nomem then s else s.setReverse sp p (some name)

/-- `ipc_reverse_remove`. -/
def ipcReverseRemove (s : State) (sp : SpaceId) (p : PortId) : State := s.setReverse sp p none

/-! ## Dead-name requests -/

/-- `ipc_port_dnrequest`, unless there is no free slot. -/
def ipcPortDnrequest (port : Port) (name : Name) (soright : PortId) : Option (Port × Nat) :=
  match port.dnrequests with
  | none => none
  | some t =>
    if t.next = 0 then none
    else
      match t.slots[t.next - 1]? with
      | some (.free next) =>
        some ({ port with dnrequests := some ⟨next, t.slots.set (t.next - 1) (.used name soright)⟩ },
          t.next)
      | _ => none

/-- The new elements of `ipc_port_dngrow`, from `size` on, put on the free list. -/
def growSlots : Nat → Nat → Nat → List DnSlot × Nat
  | 0, _, free => ([], free)
  | n + 1, size, free =>
    let r := growSlots n (size + 1) size
    (.free free :: r.1, r.2)

/-- `ipc_port_dngrow` to `n` more slots, when nothing came in between. -/
def ipcPortDngrow (port : Port) (n : Nat) : Port :=
  let old := port.dnrequests.getD ⟨0, []⟩
  let r := growSlots n (old.slots.length + 1) old.next
  { port with dnrequests := some ⟨r.2, old.slots ++ r.1⟩ }

/-- `ipc_port_dncancel`. -/
def ipcPortDncancel (port : Port) (index : Nat) : Port × Option PortId :=
  match port.dnrequests with
  | none => (port, none)
  | some t =>
    match t.slots[index - 1]? with
    | some (.used _ soright) =>
      ({ port with dnrequests := some ⟨index, t.slots.set (index - 1) (.free t.next)⟩ },
        some soright)
    | _ => (port, none)

/-- `ipc_port_dnrename`. -/
def ipcPortDnrename (port : Port) (index : Nat) (nname : Name) : Port :=
  match port.dnrequests with
  | none => port
  | some t =>
    match t.slots[index - 1]? with
    | some (.used _ soright) =>
      { port with dnrequests := some ⟨t.next, t.slots.set (index - 1) (.used nname soright)⟩ }
    | _ => port

/-! ## Msg-accepted requests -/

def State.findMarequest (s : State) (sp : SpaceId) (name : Name) : Option Nat :=
  s.marequestTable.find? fun i => (s.marequest i).space = sp ∧ (s.marequest i).name = name

def State.renameMarequest (s : State) (i : Nat) (name : Name) : State :=
  { s with marequest := update s.marequest i { s.marequest i with name := name } }

def State.unlinkMarequest (s : State) (sp : SpaceId) (name : Name) : State :=
  match s.findMarequest sp name with
  | none => s
  | some i => { s with marequestTable := s.marequestTable.erase i }

/-- `ipc_marequest_cancel`. -/
def ipcMarequestCancel (s : State) (sp : SpaceId) (name : Name) : State :=
  match s.findMarequest sp name with
  | none => s
  | some i => { s.renameMarequest i 0 with marequestTable := s.marequestTable.erase i }

/-- `ipc_marequest_rename`. -/
def ipcMarequestRename (s : State) (sp : SpaceId) (old new : Name) : State :=
  match s.findMarequest sp old with
  | none => s
  | some i => { s.renameMarequest i new with marequestTable := i :: s.marequestTable.erase i }

end Mach.Ipc.Rights
