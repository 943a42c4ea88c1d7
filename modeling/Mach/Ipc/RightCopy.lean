import Mach.Ipc.Right

/-!
# Copying rights in and out

The functions by which rights leave a space and enter one: `ipc_right_copyin` and its
relatives, `ipc_right_copyout`, and their callers in `ipc/ipc_object.c`. An object
`none` is `IO_DEAD`.

`ipc_entry_alloc` appears here as the name it returns, of an entry that is not in use.
-/

namespace Mach.Ipc.Rights

/-- The dispositions of `ipc_right_copyin`. -/
inductive Disposition
  | makeSend | makeSendOnce | moveReceive | copySend | moveSend | moveSendOnce
  deriving DecidableEq

/-- What a copyin returns: the object and a send-once right for a port-deleted
notification. -/
structure Copied where
  object : Option PortId
  soright : Option PortId
  deriving DecidableEq

/-! ## Copyin -/

/-- `copy_dead` in `ipc_right_copyin`. -/
def copyDead (s : State) (deadok : Bool) : State × Option Copied :=
  if deadok then (s, some ⟨none, none⟩) else (s, none)

/-- `move_dead` in `ipc_right_copyin`. -/
def moveDead (s : State) (k : Key) (deadok : Bool) : State × Option Copied :=
  let e := s.entry k
  if deadok then
    let bits :=
      if e.bits.urefs = 1 then { e.bits with deadName := false }
      else { e.bits with urefs := e.bits.urefs - 1 }
    (s.setEntry k { e with bits := bits }, some ⟨none, none⟩)
  else (s, none)

/-- `MACH_MSG_TYPE_MOVE_RECEIVE`. -/
def moveReceive (s : State) (p : PortId) (k : Key) (nomem : Bool) : State × Option PortId :=
  let e := s.entry k
  let r :=
    if e.bits.send then ((ipcReverseInsert s k.1 p k.2 nomem).reference p, none)
    else
      let d := ipcRightDncancel s p k
      let s := if e.bits.marequest then ipcMarequestCancel d.1 k.1 k.2 else d.1
      (s.setEntry k { s.entry k with object := none }, d.2)
  let s := r.1
  let s := s.setEntry k { s.entry k with bits := { e.bits with receive := false } }
  ((ipcPortClearReceiver s p).limbo p, r.2)

/-- `MACH_MSG_TYPE_MOVE_SEND`, of a live port. -/
def moveSend (s : State) (p : PortId) (k : Key) : State × Option PortId :=
  let e := s.entry k
  if e.bits.urefs = 1 then
    let r :=
      if e.bits.receive then (s.reference p, none)
      else
        let d := ipcRightDncancel s p k
        let s := ipcReverseRemove d.1 k.1 p
        let s := if e.bits.marequest then ipcMarequestCancel s k.1 k.2 else s
        (s.setEntry k { s.entry k with object := none }, d.2)
    let s := r.1
    (s.setEntry k { s.entry k with bits := { e.bits with urefs := 0, send := false } }, r.2)
  else ((s.copySright p).setUrefs k (e.bits.urefs - 1), none)

/-- `MACH_MSG_TYPE_MOVE_SEND_ONCE`, of a live port. -/
def moveSendOnce (s : State) (p : PortId) (k : Key) : State × Option PortId :=
  let e := s.entry k
  let d := ipcRightDncancel s p k
  (d.1.setEntry k { d.1.entry k with bits := { e.bits with sendOnce := false }, object := none }, d.2)

/-- The part that `MACH_MSG_TYPE_MAKE_SEND`, `MAKE_SEND_ONCE` and `MOVE_RECEIVE` share:
they need a receive right. -/
def copyinReceive (s : State) (k : Key) (f : PortId → State × Option PortId) :
    State × Option Copied :=
  match (s.entry k).bits.receive, (s.entry k).port with
  | true, some p => ((f p).1, some ⟨some p, (f p).2⟩)
  | _, _ => (s, none)

/-- The part that `MACH_MSG_TYPE_COPY_SEND`, `MOVE_SEND` and `MOVE_SEND_ONCE` share: `dead`
is what they do with a dead name, and `live` with a live port, if the entry has the
right they ask for. -/
def copyinSend (s : State) (k : Key) (asks : Bool)
    (dead : State → State × Option Copied) (live : PortId → State × Option PortId) :
    State × Option Copied :=
  let e := s.entry k
  if e.bits.deadName then dead s
  -- dead send-once rights are allowed for, and dead send rights
  else if ¬ e.bits.sendRights then (s, none)
  else
    match e.port with
    | none => (s, none)
    | some p =>
      match ipcRightCheck s p k with
      | (s, true) => dead s
      | (s, false) => if asks then ((live p).1, some ⟨some p, (live p).2⟩) else (s, none)

/-- `ipc_right_copyin`; nothing is returned with `KERN_INVALID_RIGHT`. -/
def ipcRightCopyin (s : State) (k : Key) (msgt : Disposition) (deadok nomem : Bool) :
    State × Option Copied :=
  let e := s.entry k
  match msgt with
  | .makeSend => copyinReceive s k fun p => (ipcPortMakeSend s p, none)
  | .makeSendOnce => copyinReceive s k fun p => (ipcPortMakeSonce s p, none)
  | .moveReceive => copyinReceive s k fun p => moveReceive s p k nomem
  | .copySend =>
    copyinSend s k e.bits.send (copyDead · deadok) fun p => (s.copySright p, none)
  | .moveSend => copyinSend s k e.bits.send (moveDead · k deadok) fun p => moveSend s p k
  | .moveSendOnce =>
    copyinSend s k e.bits.sendOnce (moveDead · k deadok) fun p => moveSendOnce s p k

/-- `ipc_right_copyin_two`. -/
def ipcRightCopyinTwo (s : State) (k : Key) : State × Option Copied :=
  let e := s.entry k
  match e.port with
  | none => (s, none)
  | some p =>
    if ¬ e.bits.send ∨ e.bits.urefs < 2 then (s, none)
    else
      match ipcRightCheck s p k with
      | (s, true) => (s, none)
      | (s, false) =>
        if e.bits.urefs = 2 then
          let r :=
            if e.bits.receive then ((s.copySright p).reference p, none)
            else
              let d := ipcRightDncancel s p k
              let s := ipcReverseRemove d.1 k.1 p
              let s := if e.bits.marequest then ipcMarequestCancel s k.1 k.2 else s
              let s := s.copySright p
              (s.setEntry k { s.entry k with object := none }, d.2)
          let s := r.1
          (s.setEntry k { s.entry k with bits := { e.bits with urefs := 0, send := false } },
            some ⟨some p, r.2⟩)
        else
          (((s.copySright p).copySright p).setUrefs k (e.bits.urefs - 2), some ⟨some p, none⟩)

/-- `ipc_right_copyin_undo`. -/
def ipcRightCopyinUndo (s : State) (k : Key) (msgt : Disposition) (c : Copied) : State :=
  let e := s.entry k
  let dead (urefs : Nat) : Entry := { e with bits := { Bits.zero with urefs := urefs, deadName := true } }
  let s :=
    if c.soright.isSome then s.setEntry k (dead 2)
    else if e.bits.type = .none then s.setEntry k (dead 1)
    else if e.bits.type = .deadName then
      if msgt = .copySend then s else s.setUrefs k (e.bits.urefs + 1)
    else
      let s := if msgt = .copySend then s else s.setUrefs k (e.bits.urefs + 1)
      match c.object with
      | some p => (ipcRightCheck s p k).1
      | none => s
  match c.object with
  | some p => s.release p
  | none => s

/-! ## Copyout -/

inductive PortMsgType
  | portReceive | portSend | portSendOnce
  deriving DecidableEq

/-- `ipc_right_copyout`, of a live port. -/
def ipcRightCopyout (s : State) (k : Key) (msgt : PortMsgType) (overflow nomem : Bool)
    (p : PortId) : KernReturn × State :=
  let e := s.entry k
  match msgt with
  | .portSendOnce =>
    (.success, s.setEntry k { e with bits := { e.bits with
      sendOnce := true, urefs := e.bits.urefs ||| 1 } })
  | .portSend =>
    let x := s.port p
    let sent (s : State) : KernReturn × State :=
      (.success, s.setEntry k { e with bits := { e.bits with send := true, urefs := e.bits.urefs + 1 } })
    if e.bits.send then
      let drop := s.setPort p { x with srights := x.srights - 1, references := x.references - 1 }
      if e.bits.urefs + 1 = urefsMax then
        if overflow then (.success, drop) else (.urefsOverflow, s)
      else sent drop
    else if e.bits.receive then sent (s.release p)
    else sent (ipcReverseInsert s k.1 p k.2 nomem)
  | .portReceive =>
    let dest := match (s.port p).data with
      | .destination dest => dest
      | _ => none
    let s := s.setPort p { s.port p with receiverName := k.2, data := .receiver k.1 }
    let s := if e.bits.send then ipcReverseRemove (s.release p) k.1 p else s
    let s := s.setEntry k { e with bits := { e.bits with receive := true } }
    (.success, match dest with
      | some q => s.release q
      | none => s)

/-- `ipc_object_copyout`. `fresh` is what `ipc_entry_alloc` returns. -/
def ipcObjectCopyout (s : State) (sp : SpaceId) (p : PortId) (msgt : PortMsgType)
    (overflow nomem : Bool) (fresh : Option Name) : KernReturn × State :=
  if ¬ (s.space sp).isActive then (.invalidTask, s)
  else
    match if msgt = .portSendOnce then none else ipcRightReverse s sp p with
    | some name => ipcRightCopyout s (sp, name) msgt overflow nomem p
    | none =>
      match fresh with
      | none => (.resourceShortage, s)
      | some name =>
        if ¬ (s.port p).active then (.invalidCapability, s.setEntry (sp, name) .blank)
        else
          ipcRightCopyout (s.setEntry (sp, name) { Entry.blank with object := some (.port p) })
            (sp, name) msgt overflow nomem p

/-- `ipc_object_copyout_name`. When the name is not in use, `fresh` says whether
`ipc_entry_alloc_name` finds memory for it. -/
def ipcObjectCopyoutName (s : State) (sp : SpaceId) (p : PortId) (msgt : PortMsgType)
    (overflow nomem fresh : Bool) (name : Name) : KernReturn × State :=
  let unused := (s.entry (sp, name)).bits.type = .none
  if ¬ (s.space sp).isActive then (.invalidTask, s)
  else if unused ∧ ¬ fresh then (.resourceShortage, s)
  else
    match if msgt = .portSendOnce then none else ipcRightReverse s sp p with
    | some oname =>
      if name ≠ oname then
        (.rightExists, if unused then s.setEntry (sp, name) .blank else s)
      else ipcRightCopyout s (sp, name) msgt overflow nomem p
    | none =>
      if ¬ unused then (.nameExists, s)
      else if ¬ (s.port p).active then (.invalidCapability, s.setEntry (sp, name) .blank)
      else
        ipcRightCopyout (s.setEntry (sp, name) { Entry.blank with object := some (.port p) })
          (sp, name) msgt overflow nomem p

/-! ## Renaming and requests -/

/-- The part of `ipc_right_rename` that moves a dead-name request, when there is one. -/
def renameRequest (s : State) (k : Key) (nname : Name) : State :=
  match (s.entry k).port with
  | none => s
  | some p =>
    if (s.entry k).request = 0 then s
    else
      match ipcRightCheck s p k with
      | (s, true) => s
      | (s, false) => s.setPort p (ipcPortDnrename (s.port p) (s.entry k).request nname)

/-- The part of `ipc_right_rename` that moves the entry. -/
def renameEntry (s : State) (k : Key) (nname : Name) (nomem : Bool) : State :=
  let e := s.entry k
  let s := s.setEntry (k.1, nname) e
  let s :=
    match e.bits.type, e.object with
    | .send, some (.port p) => ipcReverseInsert (ipcReverseRemove s k.1 p) k.1 p nname nomem
    | .receive, some (.port p) | .sendReceive, some (.port p) =>
      s.setPort p { s.port p with receiverName := nname }
    | .portSet, some (.pset i) => s.setPset i { s.pset i with localName := nname }
    | _, _ => s
  s.setEntry k .blank

/-- `ipc_right_rename`. -/
def ipcRightRename (s : State) (k : Key) (nname : Name) (nomem : Bool) : State :=
  let s := renameRequest s k nname
  renameEntry (if (s.entry k).bits.marequest then ipcMarequestRename s k.1 k.2 nname else s)
    k nname nomem

/-- One turn of the loop of `ipc_right_dnrequest`, after the lookup. When it has to grow
the table of the port first, it returns `KERN_NO_SPACE`. The right is the one that was
registered before. -/
def ipcRightDnrequest (s : State) (k : Key) (immediate : Bool) (notify : Option PortId) :
    KernReturn × State × Option PortId :=
  let e := s.entry k
  let dead (s : State) : KernReturn × State × Option PortId :=
    let b := (s.entry k).bits
    match b.deadName && immediate, notify with
    | true, some q =>
      if urefsOverflow b.urefs 1 then (.urefsOverflow, s, none)
      else (.success, (s.setUrefs k (b.urefs + 1)).notify (.deadName q k.2), none)
    | _, _ => (if b.portRights || b.deadName then .invalidArgument else .invalidRight, s, none)
  if e.bits.portRights then
    match e.port with
    | none => (.fault, s, none)
    | some p =>
      match ipcRightCheck s p k with
      | (s, true) => dead s
      | (s, false) =>
        let d := ipcRightDncancel s p k
        match notify with
        | none => (.success, d.1, d.2)
        | some q =>
          match ipcPortDnrequest (d.1.port p) k.2 q with
          | none => (.noSpace, d.1, d.2)
          | some (x, request) =>
            (.success, (d.1.setPort p x).setEntry k { d.1.entry k with request := request }, d.2)
  else dead s

/-- `ipc_marequest_create`: the send-once right made for the request `i`. -/
def ipcMarequestCreate (s : State) (i : Nat) (sp : SpaceId) (p : PortId) (notify : Name) :
    State × Option PortId :=
  if ¬ (s.space sp).isActive then (s, none)
  else
    match ipcRightReverse s sp p with
    | some name =>
      let e := s.entry (sp, name)
      if e.bits.marequest then (s, none)
      else
        match ipcPortLookupNotify s sp notify with
        | (s, none) => (s, none)
        | (s, some q) =>
          let s := s.setEntry (sp, name) { e with bits := { e.bits with marequest := true } }
          ({ s with
            marequest := Function.update s.marequest i ⟨sp, name, q⟩
            marequestTable := i :: s.marequestTable }, some q)
    | none =>
      match ipcPortLookupNotify s sp notify with
      | (s, none) => (s, none)
      | (s, some q) =>
        ({ s with marequest := Function.update s.marequest i ⟨sp, 0, q⟩ }, some q)

/-- `ipc_marequest_destroy`. -/
def ipcMarequestDestroy (s : State) (i : Nat) : State :=
  let m := s.marequest i
  let k := (m.space, m.name)
  let r :=
    if m.name = 0 then (s, 0)
    else
      let s := s.unlinkMarequest m.space m.name
      if ¬ (s.space m.space).isActive then (s, 0)
      else if (s.entry k).bits.type = .none then (s, m.name)
      else
        (s.setEntry k { s.entry k with bits := { (s.entry k).bits with marequest := false } },
          m.name)
  r.1.notify (.msgAccepted m.soright r.2)

end Mach.Ipc.Rights
