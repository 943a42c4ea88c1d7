import Mathlib.Algebra.Order.Group.Multiset
import Mathlib.Data.Finset.Basic
import Mach.Ipc.RightCopy
import Mach.Lib.Transition

/-!
# The system of rights

The calls of the functions on rights, as a transition system. Besides the state of
the kernel it records the naked rights that messages and callers hold, and the entries
from which something was copied in and whose copier has not finished: until it does, it
has the space locked.

The conditions on a call are those of the callers: a naked right is given away only by
who has it, a new entry is one that was not in use, entries are changed in an active
space and cleaned in a dead one.
-/

namespace Mach.Ipc.Rights

open Function

inductive Right
  | send (p : PortId)
  | sendOnce (p : PortId)
  | receive (p : PortId)
  deriving DecidableEq

/-- The naked right that a copyin of the port `p` gives. -/
def Disposition.right (p : PortId) : Disposition → Right
  | .makeSend | .copySend | .moveSend => .send p
  | .makeSendOnce | .moveSendOnce => .sendOnce p
  | .moveReceive => .receive p

/-- The naked right that a copyout of the port `p` takes. -/
def PortMsgType.right (p : PortId) : PortMsgType → Right
  | .portReceive => .receive p
  | .portSend => .send p
  | .portSendOnce => .sendOnce p

def sonces (q : Option PortId) : Multiset Right := (q.map Right.sendOnce).elim 0 ({·})

def Notification.rights : Notification → Multiset Right
  | .portDeleted q _ | .msgAccepted q _ | .noSenders q _ | .sendOnce q | .deadName q _ =>
    {.sendOnce q}
  | .portDestroyed q p => {.sendOnce q, .receive p}

def State.noted (s : State) : Multiset Right := (s.notifications.map Notification.rights).sum

def Notification.soright : Notification → PortId
  | .portDeleted q _ | .msgAccepted q _ | .noSenders q _ | .sendOnce q | .deadName q _
  | .portDestroyed q _ => q

/-- The naked rights that were copied in, if a port of which stands for `rights`. -/
def Copied.rights (c : Copied) (rights : PortId → Multiset Right) : Multiset Right :=
  c.object.elim 0 rights + sonces c.soright

structure Pending where
  msgt : Option Disposition
  copied : Copied
  deriving DecidableEq

structure Sys where
  st : State
  held : Multiset Right
  pending : Key → Option Pending
  accepted : Finset Nat

inductive Action
  | copyin (k : Key) (msgt : Disposition) (deadok nomem : Bool)
  | copyinTwo (k : Key)
  | finish (k : Key)
  | undo (k : Key)
  | copyout (sp : SpaceId) (p : PortId) (msgt : PortMsgType) (overflow nomem : Bool)
      (fresh : Option Name)
  | copyoutName (sp : SpaceId) (p : PortId) (msgt : PortMsgType) (overflow nomem fresh : Bool)
      (name : Name)
  | dealloc (k : Key)
  | delta (k : Key) (right : PortRight) (delta : Int) (circular : Bool)
  | destroy (k : Key) (circular : Bool)
  | clean (k : Key) (circular : Bool)
  | check (k : Key)
  | rename (k : Key) (nname : Name) (nomem : Bool)
  | dnrequest (k : Key) (immediate : Bool) (notify : Option PortId)
  | dngrow (p : PortId) (n : Nat)
  | makeSend (p : PortId)
  | copySend (p : PortId)
  | releaseSend (p : PortId)
  | makeSonce (p : PortId)
  | releaseSonce (p : PortId)
  | releaseReceive (p : PortId) (circular : Bool)
  | nsrequest (p : PortId) (sync : Count) (notify : Option PortId)
  | pdrequest (p : PortId) (notify : Option PortId)
  | marequestCreate (i : Nat) (sp : SpaceId) (p : PortId) (notify : Name)
  | marequestDestroy (i : Nat)
  | portAlloc (p : PortId) (k : Key)
  | portAllocSpecial (p : PortId) (sp : Special)
  | portDeallocSpecial (p : PortId) (circular : Bool)
  | kernelMoveReceive (p : PortId)
  | transit (p dest : PortId)
  | psetAlloc (i : PsetId) (k : Key)
  | allocDead (k : Key)
  | spaceDestroy (sp : SpaceId)
  | sent (n : Notification)
  | dropped (n : Notification) (circular : Bool)

namespace Sys

def inUse (S : Sys) (k : Key) : Prop :=
  (S.st.entry k).bits.type ≠ .none ∧ S.pending k = none

def unused (S : Sys) (k : Key) : Prop :=
  (S.st.entry k).bits.type = .none ∧ S.pending k = none ∧ nameValid k.2

def found (S : Sys) (k : Key) : Prop := (S.st.space k.1).isActive ∧ S.inUse k

def fresh (S : Sys) (k : Key) : Prop := (S.st.space k.1).isActive ∧ S.unused k

instance (S : Sys) (k : Key) : Decidable (S.inUse k) :=
  inferInstanceAs (Decidable (_ ∧ _))

instance (S : Sys) (k : Key) : Decidable (S.unused k) :=
  inferInstanceAs (Decidable (_ ∧ _))

instance (S : Sys) (k : Key) : Decidable (S.found k) :=
  inferInstanceAs (Decidable (_ ∧ _))

instance (S : Sys) (k : Key) : Decidable (S.fresh k) :=
  inferInstanceAs (Decidable (_ ∧ _))

def idle (S : Sys) (sp : SpaceId) (p : PortId) : Prop :=
  ∀ name ∈ ipcRightReverse S.st sp p, S.pending (sp, name) = none

instance (S : Sys) (sp : SpaceId) (p : PortId) : Decidable (S.idle sp p) :=
  inferInstanceAs (Decidable (∀ name ∈ ipcRightReverse S.st sp p, _))

def withSt (S : Sys) (s : State) : Sys := { S with st := s }

def copied (S : Sys) (k : Key) (msgt : Option Disposition) (rights : PortId → Multiset Right)
    (r : State × Option Copied) : Sys :=
  match r.2 with
  | none => S.withSt r.1
  | some c =>
    { S with
      st := r.1
      held := S.held + c.rights rights
      pending := update S.pending k (some ⟨msgt, c⟩) }

end Sys

/-- `struct ipc_port` after `ipc_port_init`. -/
def newPort (name : Name) (data : PortData) : Port where
  active := true
  references := 1
  receiverName := name
  data := data
  pset := none
  mscount := 0
  srights := 0
  sorights := 0
  nsrequest := none
  pdrequest := none
  dnrequests := none

def State.addPort (s : State) (p : PortId) (x : Port) : State :=
  { s.setPort p x with ports := insert p s.ports }

@[simp] theorem State.addPort_self (s : State) (p : PortId) (x : Port) : (s.addPort p x).port p = x :=
  update_self ..

/-- `ipc_space_destroy` has marked the space inactive. -/
def State.destroySpace (s : State) (sp : SpaceId) : State :=
  { s with space := update s.space sp { s.space sp with isActive := false } }

def Pending.rights (m : Pending) : Multiset Right :=
  (match m.msgt, m.copied.object with
    | some msgt, some p => {msgt.right p}
    | _, _ => 0) + sonces m.copied.soright

def Pending.undoable (s : State) (m : Pending) : Option Disposition :=
  match m.msgt, m.copied.object with
  | some msgt, none => if msgt ∈ [.copySend, .moveSend, .moveSendOnce] then some msgt else none
  | some msgt, some p =>
    if msgt ∈ [.copySend, .moveSend, .moveSendOnce] ∧ ¬ (s.port p).active then some msgt else none
  | none, _ => none

def step (S : Sys) : Action → Option Sys
  | .copyin k msgt deadok nomem =>
    if S.found k then
      some (S.copied k (some msgt) (fun p => {msgt.right p})
        (ipcRightCopyin S.st k msgt deadok nomem))
    else none
  | .copyinTwo k =>
    if S.found k then
      some (S.copied k none (fun p => {.send p, .send p}) (ipcRightCopyinTwo S.st k))
    else none
  | .finish k =>
    match S.pending k with
    | none => none
    | some m =>
      if sonces m.copied.soright ≤ S.held then
        let s := if (S.st.entry k).bits.type = .none then S.st.setEntry k .blank else S.st
        some { S with
          st := s.notifyIf (m.copied.soright.map (.portDeleted · k.2))
          held := S.held - sonces m.copied.soright
          pending := update S.pending k none }
      else none
  | .undo k =>
    match S.pending k with
    | none => none
    | some m =>
      match m.undoable S.st with
      | none => none
      | some msgt =>
        if m.rights ≤ S.held then
          some { S with
            st := (ipcRightCopyinUndo S.st k msgt m.copied).notifyIf
              (m.copied.soright.map (.deadName · k.2))
            held := S.held - m.rights
            pending := update S.pending k none }
        else none
  | .copyout sp p msgt overflow nomem fresh =>
    if msgt.right p ∈ S.held ∧ S.idle sp p ∧ ∀ name ∈ fresh, S.unused (sp, name) then
      let r := ipcObjectCopyout S.st sp p msgt overflow nomem fresh
      some { S with st := r.2, held := if r.1 = .success then S.held.erase (msgt.right p) else S.held }
    else none
  | .copyoutName sp p msgt overflow nomem fresh name =>
    if msgt.right p ∈ S.held ∧ S.pending (sp, name) = none ∧ nameValid name then
      let r := ipcObjectCopyoutName S.st sp p msgt overflow nomem fresh name
      some { S with st := r.2, held := if r.1 = .success then S.held.erase (msgt.right p) else S.held }
    else none
  | .dealloc k => if S.found k then some (S.withSt (ipcRightDealloc S.st k).2) else none
  | .delta k right delta circular =>
    if S.found k then some (S.withSt (ipcRightDelta S.st k right delta circular).2) else none
  | .destroy k circular =>
    if S.found k then some (S.withSt (ipcRightDestroy S.st k circular).2) else none
  | .clean k circular =>
    if ¬ (S.st.space k.1).isActive ∧ S.inUse k then
      some (S.withSt ((ipcRightClean S.st k circular).setEntry k .blank))
    else none
  | .check k =>
    match (S.st.entry k).bits.portRights, (S.st.entry k).port with
    | true, some p => if S.found k then some (S.withSt (ipcRightCheck S.st p k).1) else none
    | _, _ => none
  | .rename k nname nomem =>
    if S.found k ∧ S.unused (k.1, nname) then some (S.withSt (ipcRightRename S.st k nname nomem)) else none
  | .dnrequest k immediate notify =>
    if S.found k ∧ sonces notify ≤ S.held then
      let r := ipcRightDnrequest S.st k immediate notify
      some { S with
        st := r.2.1
        held := (if r.1 = .success then S.held - sonces notify else S.held) + sonces r.2.2 }
    else none
  | .dngrow p n =>
    if (S.st.port p).active then some (S.withSt (S.st.setPort p (ipcPortDngrow (S.st.port p) n)))
    else none
  | .makeSend p =>
    if (S.st.port p).active then
      some { S with st := ipcPortMakeSend S.st p, held := .send p ::ₘ S.held }
    else none
  | .copySend p =>
    if .send p ∈ S.held then
      let r := ipcPortCopySend S.st p
      some { S with st := r.1, held := r.2.elim 0 (fun q => {.send q}) + S.held }
    else none
  | .releaseSend p =>
    if .send p ∈ S.held then
      some { S with st := ipcPortReleaseSend S.st p, held := S.held.erase (.send p) }
    else none
  | .makeSonce p =>
    if (S.st.port p).active then
      some { S with st := ipcPortMakeSonce S.st p, held := .sendOnce p ::ₘ S.held }
    else none
  | .releaseSonce p =>
    if .sendOnce p ∈ S.held then
      some { S with st := ipcPortReleaseSonce S.st p, held := S.held.erase (.sendOnce p) }
    else none
  | .releaseReceive p circular =>
    if .receive p ∈ S.held then
      some { S with st := ipcPortReleaseReceive S.st p circular, held := S.held.erase (.receive p) }
    else none
  | .nsrequest p sync notify =>
    if (S.st.port p).active ∧ sonces notify ≤ S.held then
      let r := ipcPortNsrequest S.st p sync notify
      some { S with st := r.1, held := S.held - sonces notify + sonces r.2 }
    else none
  | .pdrequest p notify =>
    if (S.st.port p).active ∧ sonces notify ≤ S.held then
      let r := ipcPortPdrequest S.st p notify
      some { S with st := r.1, held := S.held - sonces notify + sonces r.2 }
    else none
  | .marequestCreate i sp p notify =>
    if i ∉ S.accepted ∧ S.idle sp p then
      let r := ipcMarequestCreate S.st i sp p notify
      some { S with
        st := r.1
        held := S.held + sonces r.2
        accepted := if r.2.isSome then insert i S.accepted else S.accepted }
    else none
  | .marequestDestroy i =>
    let m := S.st.marequest i
    if i ∈ S.accepted ∧ .sendOnce m.soright ∈ S.held ∧ S.pending (m.space, m.name) = none then
      some { S with
        st := ipcMarequestDestroy S.st i
        held := S.held.erase (.sendOnce m.soright)
        accepted := S.accepted.erase i }
    else none
  | .portAlloc p k =>
    if p ∉ S.st.ports ∧ S.fresh k then
      some (S.withSt ((S.st.addPort p (newPort k.2 (.receiver k.1))).setEntry k
        ⟨{ Bits.zero with receive := true }, some (.port p), 0⟩))
    else none
  | .portAllocSpecial p sp =>
    if p ∉ S.st.ports then some (S.withSt (S.st.addPort p (newPort p (.special sp)))) else none
  | .portDeallocSpecial p circular =>
    match (S.st.port p).active, (S.st.port p).data with
    | true, .special _ => some (S.withSt (ipcPortDestroy (ipcPortClearReceiver (S.st.limbo p) p) p circular))
    | _, _ => none
  | .kernelMoveReceive p =>
    match (S.st.port p).active, (S.st.port p).data with
    | true, .special .kernel =>
      some { S with
        st := (S.st.setPort p { S.st.port p with mscount := 0 }).limbo p
        held := .receive p ::ₘ S.held }
    | _, _ => none
  | .transit p dest =>
    if .receive p ∈ S.held ∧ (S.st.port p).data = .destination none ∧ dest ≠ p then
      some (S.withSt (S.st.transit p dest))
    else none
  | .psetAlloc i k =>
    if S.fresh k then
      some (S.withSt ((S.st.setPset i ⟨true, 1, k.2⟩).setEntry k
        ⟨{ Bits.zero with portSet := true }, some (.pset i), 0⟩))
    else none
  | .allocDead k =>
    if S.fresh k then
      some (S.withSt (S.st.setEntry k ⟨{ Bits.zero with deadName := true, urefs := 1 }, none, 0⟩))
    else none
  | .spaceDestroy sp =>
    some (S.withSt (S.st.destroySpace sp))
  | .sent n =>
    if n ∈ S.st.notifications then
      some { S with
        st := { S.st with notifications := S.st.notifications.erase n }
        held := S.held + n.rights }
    else none
  | .dropped n circular =>
    if n ∈ S.st.notifications then
      let s := ipcPortReleaseSonce { S.st with notifications := S.st.notifications.erase n } n.soright
      some (S.withSt (match n with
        | .portDestroyed _ right => ipcPortReleaseReceive s right circular
        | _ => s))
    else none

structure init (S : Sys) : Prop where
  ports : S.st.ports = ∅
  dead : ∀ p, (S.st.port p).active = false
  entries : ∀ k, S.st.entry k = .blank
  reverse : ∀ sp p, (S.st.space sp).isReverseMap p = none
  notifications : S.st.notifications = []
  marequests : S.st.marequestTable = []
  held : S.held = 0
  pending : ∀ k, S.pending k = none
  accepted : S.accepted = ∅

def lts : Lib.Lts Sys Action := ⟨init, step⟩

end Mach.Ipc.Rights
