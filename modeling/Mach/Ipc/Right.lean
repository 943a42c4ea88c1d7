import Mach.Ipc.RightState

/-!
# Manipulation of rights

The functions of `ipc/ipc_right.c`, and those of `ipc/ipc_port.c` that make, copy and
release naked rights and destroy ports, as functions on the state. Each is what the
source does under its locks. What it takes from elsewhere is an argument: `nomem`, that
the reverse map finds no memory for a node, and `circular`, what
`ipc_port_check_circularity` finds.

Notifications are recorded and not yet sent, and so are the messages of a port that is
destroyed: the rights in them are still there, as naked rights.
-/

namespace Mach.Ipc.Rights

/-! ## Ports -/

/-- The fragment `if (--port->ip_srights == 0)`: with the last send right, the request
for a no-senders notification goes. -/
def State.dropSright (s : State) (p : PortId) : State × Option Notification :=
  let x := { s.port p with srights := (s.port p).srights - 1 }
  if x.srights = 0 then
    match x.nsrequest with
    | some q => (s.setPort p { x with nsrequest := none }, some (.noSenders q x.mscount))
    | none => (s.setPort p x, none)
  else (s.setPort p x, none)

/-- `ipc_port_clear_receiver`. -/
def ipcPortClearReceiver (s : State) (p : PortId) : State :=
  let x := s.port p
  let s := match x.pset with
    | some i => s.setPset i { s.pset i with references := (s.pset i).references - 1 }
    | none => s
  s.setPort p { x with pset := none, mscount := 0 }

/-- `ipc_pset_destroy`. -/
def ipcPsetDestroy (s : State) (i : PsetId) : State :=
  s.setPset i { s.pset i with active := false, references := (s.pset i).references - 1 }

def State.notifyDead (s : State) (slots : List DnSlot) : State :=
  slots.foldl (fun s slot =>
    match slot with
    | .used name soright => s.notify (.deadName soright name)
    | .free _ => s) s

/-- The part of `ipc_port_destroy` from where the port dies. -/
def State.die (s : State) (p : PortId) : State :=
  let x := s.port p
  let s := { s.setPort p { x with active := false, data := .timestamp s.timestamp } with
    timestamp := s.timestamp + 1 }
  let s := s.notifyIf (x.nsrequest.map .sendOnce)
  let s := s.notifyDead (x.dnrequests.elim [] DnTable.slots)
  s.release p

/-- `ipc_port_release_sonce`. -/
def ipcPortReleaseSonce (s : State) (p : PortId) : State :=
  s.setPort p { s.port p with
    sorights := (s.port p).sorights - 1, references := (s.port p).references - 1 }

def State.limbo (s : State) (p : PortId) : State :=
  s.setPort p { s.port p with receiverName := 0, data := .destination none }

/-- The port is in transit to `dest`, with a reference for it. -/
def State.transit (s : State) (p dest : PortId) : State :=
  let s := s.reference dest
  s.setPort p { s.port p with data := .destination (some dest) }

/-- `ipc_port_destroy`. -/
def ipcPortDestroy (s : State) (p : PortId) (circular : Bool) : State :=
  match (s.port p).pdrequest with
  | none => s.die p
  | some q =>
    let s := (s.setPort p { s.port p with pdrequest := none }).limbo p
    if circular then (ipcPortReleaseSonce s q).die p
    else (s.transit p q).notify (.portDestroyed q p)

/-- `ipc_port_make_send`. -/
def ipcPortMakeSend (s : State) (p : PortId) : State :=
  s.setPort p { s.port p with
    mscount := (s.port p).mscount + 1
    srights := (s.port p).srights + 1
    references := (s.port p).references + 1 }

/-- `ipc_port_make_sonce`. -/
def ipcPortMakeSonce (s : State) (p : PortId) : State :=
  s.setPort p { s.port p with
    sorights := (s.port p).sorights + 1, references := (s.port p).references + 1 }

def State.copySright (s : State) (p : PortId) : State :=
  s.setPort p { s.port p with
    srights := (s.port p).srights + 1, references := (s.port p).references + 1 }

/-- `ipc_port_copy_send` of a valid port; the result is `IP_DEAD` when there is none. -/
def ipcPortCopySend (s : State) (p : PortId) : State × Option PortId :=
  if (s.port p).active then (s.copySright p, some p) else (s, none)

/-- `ipc_port_release_send`. -/
def ipcPortReleaseSend (s : State) (p : PortId) : State :=
  let s := s.release p
  if (s.port p).active then
    let r := s.dropSright p
    r.1.notifyIf r.2
  else s

/-- `ipc_port_release_receive`. -/
def ipcPortReleaseReceive (s : State) (p : PortId) (circular : Bool) : State :=
  let dest := match (s.port p).data with
    | .destination dest => dest
    | _ => none
  let s := ipcPortDestroy s p circular
  match dest with
  | some q => s.release q
  | none => s

/-- `ipc_port_nsrequest`, with the request it replaces. -/
def ipcPortNsrequest (s : State) (p : PortId) (sync : Count) (notify : Option PortId) :
    State × Option PortId :=
  let x := s.port p
  match notify with
  | some q =>
    if x.srights = 0 ∧ sync ≤ x.mscount then
      ((s.setPort p { x with nsrequest := none }).notify (.noSenders q x.mscount), x.nsrequest)
    else (s.setPort p { x with nsrequest := some q }, x.nsrequest)
  | none => (s.setPort p { x with nsrequest := none }, x.nsrequest)

/-- `ipc_port_pdrequest`, with the request it replaces. -/
def ipcPortPdrequest (s : State) (p : PortId) (notify : Option PortId) : State × Option PortId :=
  (s.setPort p { s.port p with pdrequest := notify }, (s.port p).pdrequest)

/-! ## Entries -/

/-- `ipc_entry_lookup`. -/
def ipcEntryLookup (s : State) (sp : SpaceId) (name : Name) : Option Entry :=
  if (s.entry (sp, name)).bits.type = .none then none else some (s.entry (sp, name))

/-- `ipc_port_lookup_notify`: a send-once right made from the receive right `name`. -/
def ipcPortLookupNotify (s : State) (sp : SpaceId) (name : Name) : State × Option PortId :=
  match ipcEntryLookup s sp name with
  | none => (s, none)
  | some e =>
    match e.bits.receive, e.port with
    | true, some p => (ipcPortMakeSonce s p, some p)
    | _, _ => (s, none)

/-- `ipc_right_reverse`. -/
def ipcRightReverse (s : State) (sp : SpaceId) (p : PortId) : Option Name :=
  if ¬ (s.port p).active then none
  else if (s.port p).data = .receiver sp then some (s.port p).receiverName
  else (s.space sp).isReverseMap p

/-- `ipc_right_dncancel_macro`. -/
def ipcRightDncancel (s : State) (p : PortId) (k : Key) : State × Option PortId :=
  if (s.entry k).request = 0 then (s, none)
  else
    let r := ipcPortDncancel (s.port p) (s.entry k).request
    ((s.setPort p r.1).setEntry k { s.entry k with request := 0 }, r.2)

/-- `ipc_right_check`: whether the port is dead; then the entry is a dead name. -/
def ipcRightCheck (s : State) (p : PortId) (k : Key) : State × Bool :=
  if (s.port p).active then (s, false)
  else
    let e := s.entry k
    let s :=
      if e.bits.send then
        ipcReverseRemove (if e.bits.marequest then ipcMarequestCancel s k.1 k.2 else s) k.1 p
      else s
    let s := s.release p
    let bits := { e.bits.toDeadName with
      marequest := e.bits.marequest && !e.bits.send
      urefs := if e.request ≠ 0 then e.bits.urefs + 1 else e.bits.urefs }
    (s.setEntry k ⟨bits, none, 0⟩, true)

/-- The end of `ipc_right_clean` and `ipc_right_destroy` for a live port: what becomes
of the rights that the type `b` denotes. -/
def dropRights (s : State) (b : Bits) (p : PortId) (name : Name) (dnrequest : Option PortId)
    (circular : Bool) : State :=
  let r := if b.send then s.dropSright p else (s, none)
  let s :=
    if b.receive then ipcPortDestroy (ipcPortClearReceiver r.1 p) p circular
    else if b.sendOnce then r.1.notify (.sendOnce p)
    else r.1.release p
  (s.notifyIf r.2).notifyIf (dnrequest.map (.portDeleted · name))

/-- `ipc_right_clean`. -/
def ipcRightClean (s : State) (k : Key) (circular : Bool) : State :=
  let e := s.entry k
  match e.bits.type, e.object with
  | .portSet, some (.pset i) => ipcPsetDestroy s i
  | .send, some (.port p) | .receive, some (.port p) | .sendReceive, some (.port p)
  | .sendOnce, some (.port p) =>
    if (s.port p).active then
      let r := ipcRightDncancel s p k
      dropRights r.1 e.bits p k.2 r.2 circular
    else s.release p
  | _, _ => s

/-- `ipc_right_destroy`. -/
def ipcRightDestroy (s : State) (k : Key) (circular : Bool) : KernReturn × State :=
  let e := s.entry k
  match e.bits.type, e.object with
  | .deadName, _ => (.success, s.setEntry k .blank)
  | .portSet, some (.pset i) => (.success, ipcPsetDestroy (s.setEntry k .blank) i)
  | .send, some (.port p) | .receive, some (.port p) | .sendReceive, some (.port p)
  | .sendOnce, some (.port p) =>
    let s := if e.bits.marequest then ipcMarequestCancel s k.1 k.2 else s
    let s := if e.bits.type = .send then ipcReverseRemove s k.1 p else s
    (.success,
      if (s.port p).active then
        let r := ipcRightDncancel s p k
        dropRights (r.1.setEntry k .blank) e.bits p k.2 r.2 circular
      else (s.release p).setEntry k .blank)
  | _, _ => (.fault, s)

/-! ## User references -/

def State.setUrefs (s : State) (k : Key) (urefs : Nat) : State :=
  s.setEntry k { s.entry k with bits := { (s.entry k).bits with urefs := urefs } }

def keepDeadName (s : State) (k : Key) (urefs : Nat) : State :=
  if urefs = 0 then s.setEntry k .blank else s.setUrefs k urefs

def dropSend (s : State) (p : PortId) (k : Key) : State :=
  let e := s.entry k
  let r := s.dropSright p
  let d := ipcRightDncancel r.1 p k
  let s := ipcReverseRemove d.1 k.1 p
  let s := if e.bits.marequest then ipcMarequestCancel s k.1 k.2 else s
  let s := (s.release p).setEntry k .blank
  (s.notifyIf r.2).notifyIf (d.2.map (.portDeleted · k.2))

def dropSendOfReceive (s : State) (p : PortId) (k : Key) : State :=
  let e := s.entry k
  let r := s.dropSright p
  let s := r.1.setEntry k { e with bits := { e.bits with urefs := 0, send := false } }
  s.notifyIf r.2

def dropSendOnce (s : State) (p : PortId) (k : Key) : State :=
  let d := ipcRightDncancel s p k
  let s := (d.1.setEntry k .blank).notify (.sendOnce p)
  s.notifyIf (d.2.map (.portDeleted · k.2))

/-- `ipc_right_dealloc`. -/
def ipcRightDealloc (s : State) (k : Key) : KernReturn × State :=
  let e := s.entry k
  match e.bits.type, e.object with
  | .deadName, _ => (.success, keepDeadName s k (e.bits.urefs - 1))
  | .sendOnce, some (.port p) =>
    match ipcRightCheck s p k with
    | (s, true) => (.success, keepDeadName s k ((s.entry k).bits.urefs - 1))
    | (s, false) => (.success, dropSendOnce s p k)
  | .send, some (.port p) =>
    match ipcRightCheck s p k with
    | (s, true) => (.success, keepDeadName s k ((s.entry k).bits.urefs - 1))
    | (s, false) =>
      if e.bits.urefs = 1 then (.success, dropSend s p k)
      else (.success, s.setUrefs k (e.bits.urefs - 1))
  | .sendReceive, some (.port p) =>
    if e.bits.urefs = 1 then (.success, dropSendOfReceive s p k)
    else (.success, s.setUrefs k (e.bits.urefs - 1))
  | _, _ => (.invalidRight, s)

/-- `mach_port_right_t`. -/
inductive PortRight
  | send | receive | sendOnce | portSet | deadName
  deriving DecidableEq

/-- The case `MACH_PORT_RIGHT_RECEIVE` of `ipc_right_delta`, with -1: the send right that
remains turns into a dead name. -/
def dropReceive (s : State) (p : PortId) (k : Key) (circular : Bool) : State :=
  let e := s.entry k
  let s := if e.bits.marequest then ipcMarequestCancel s k.1 k.2 else s
  if e.bits.send then
    let bits := { e.bits.toDeadName with
      marequest := false
      urefs := if e.request ≠ 0 then e.bits.urefs + 1 else e.bits.urefs }
    let s := s.setEntry k ⟨bits, none, 0⟩
    ipcPortDestroy (ipcPortClearReceiver s p) p circular
  else
    let d := ipcRightDncancel s p k
    let s := d.1.setEntry k .blank
    (ipcPortDestroy (ipcPortClearReceiver s p) p circular).notifyIf
      (d.2.map (.portDeleted · k.2))

/-- `ipc_right_delta`. -/
def ipcRightDelta (s : State) (k : Key) (right : PortRight) (delta : Int)
    (circular : Bool) : KernReturn × State :=
  let e := s.entry k
  match right with
  | .portSet =>
    if ¬ e.bits.portSet then (.invalidRight, s)
    else if delta = 0 then (.success, s)
    else if delta ≠ -1 then (.invalidValue, s)
    else
      match e.object with
      | some (.pset i) => (.success, ipcPsetDestroy (s.setEntry k .blank) i)
      | _ => (.fault, s)
  | .receive =>
    if ¬ e.bits.receive then (.invalidRight, s)
    else if delta = 0 then (.success, s)
    else if delta ≠ -1 then (.invalidValue, s)
    else
      match e.port with
      | some p => (.success, dropReceive s p k circular)
      | none => (.fault, s)
  | .sendOnce =>
    if ¬ e.bits.sendOnce then (.invalidRight, s)
    else if delta > 0 ∨ delta < -1 then (.invalidValue, s)
    else
      match e.port with
      | none => (.fault, s)
      | some p =>
        match ipcRightCheck s p k with
        | (s, true) => (.invalidRight, s)
        | (s, false) => if delta = 0 then (.success, s) else (.success, dropSendOnce s p k)
  | .deadName =>
    let dead (s : State) : KernReturn × State :=
      let urefs := (s.entry k).bits.urefs
      if urefsUnderflow urefs delta then (.invalidValue, s)
      else if urefsOverflow urefs delta then (.urefsOverflow, s)
      else (.success, keepDeadName s k (urefs + delta).toNat)
    if e.bits.sendRights then
      match e.port with
      | none => (.fault, s)
      | some p =>
        match ipcRightCheck s p k with
        | (s, true) => dead s
        | (s, false) => (.invalidRight, s)
    else if ¬ e.bits.deadName then (.invalidRight, s)
    else dead s
  | .send =>
    if ¬ e.bits.send then (.invalidRight, s)
    else if urefsUnderflow e.bits.urefs delta then (.invalidValue, s)
    else if urefsOverflow (e.bits.urefs + 1) delta then (.urefsOverflow, s)
    else
      match e.port with
      | none => (.fault, s)
      | some p =>
        match ipcRightCheck s p k with
        | (s, true) => (.invalidRight, s)
        | (s, false) =>
          if e.bits.urefs + delta = 0 then
            if e.bits.receive then (.success, dropSendOfReceive s p k)
            else (.success, dropSend s p k)
          else (.success, s.setUrefs k (e.bits.urefs + delta).toNat)

end Mach.Ipc.Rights
