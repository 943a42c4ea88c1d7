import Mach.Lib.Transition
import Mach.Lib.EventLog

/-!
# Opening and closing a device

`device_open`, `ds_open_done` and `device_close` of `device/ds_routines.c`, for one device.

Any number of opens and closes are in progress side by side. A section that holds the lock
of the device runs as one step; what is done between the sections, the port and the calls
of the driver, are steps of their own, and each of them is written to a log. `Stage.next`
is the order that opening and closing a device is meant to bring to the log.
-/

namespace Mach.Device.OpenClose

open Mach.Lib

/-- What is done outside the lock. A port is allocated and entered, or removed and
deallocated; `none` is the null port. -/
inductive Event
  | portAlloc (p : Nat)
  | portDealloc (p : Option Nat)
  | openStart
  /-- `d_open` has answered, at once or later. -/
  | openEnd (success : Bool)
  | closeStart
  | closeEnd
deriving DecidableEq

/-! ## The order of events -/

inductive Stage
  | closed
  | allocated (p : Nat)
  | opening (p : Nat)
  | opened (p : Nat)
  | failed (p : Nat)
  | deallocated
  | closing
deriving DecidableEq

def Stage.next : Stage → Event → Option Stage
  | .closed, .portAlloc p => some (.allocated p)
  | .allocated p, .openStart => some (.opening p)
  | .opening p, .openEnd true => some (.opened p)
  | .opening p, .openEnd false => some (.failed p)
  | .failed p, .portDealloc p' => if p' = some p then some .closed else none
  | .opened p, .portDealloc p' => if p' = some p then some .deallocated else none
  | .deallocated, .closeStart => some .closing
  | .closing, .closeEnd => some .closed
  | _, _ => none

/-! ## The device and the calls -/

/-- `dev_state`. -/
inductive State
  | init
  | opening
  | opened
  | closing
deriving DecidableEq

inductive Call
  /-- `device_open`, up to its wait. -/
  | openLock
  | openAsleep
  | openPort
  | openDriver
  /-- `d_open` has not answered yet. -/
  | openWait
  /-- `ds_open_done` after a success. -/
  | openDone
  /-- `ds_open_done` after an error. -/
  | openFailed
  | openReset
  | closeLock
  | closePort
  | closeDriver
  /-- `d_close` runs. -/
  | closeWait
  | closeDone
  | done
deriving DecidableEq

structure MachDevice where
  state : State
  /-- `D_EXCL_OPEN`. -/
  excl : Bool
  openCount : Int
  ioWait : Bool
  port : Option Nat
  calls : List Call
  nextPort : Nat
  log : List Event
  granted : Nat
  closed : Nat

def MachDevice.goto (s : MachDevice) (i : Nat) (c : Call) : MachDevice :=
  { s with calls := s.calls.set i c }

def MachDevice.emit (s : MachDevice) (e : Event) : MachDevice := { s with log := s.log ++ [e] }

def Call.wake : Call → Call
  | .openAsleep => .openLock
  | c => c

def MachDevice.become (s : MachDevice) (st : State) : MachDevice :=
  { s with state := st, ioWait := false
           calls := if s.ioWait then s.calls.map Call.wake else s.calls }

/-- `open_count` is a `short`. -/
def short (n : Int) : Int := Int.bmod n 65536

/-- `dev_port_remove` and `ipc_port_dealloc_kernel`. -/
def MachDevice.portDealloc (s : MachDevice) : MachDevice := s.emit (.portDealloc s.port)

/-- `device_open`, up to the allocation of the port. -/
def MachDevice.openLock (s : MachDevice) (i : Nat) : MachDevice :=
  match s.state with
  | .opening | .closing => { s with ioWait := true }.goto i .openAsleep
  | .opened =>
    -- cannot open a second time
    if s.excl then s.goto i .done
    else { s with openCount := short (s.openCount + 1), granted := s.granted + 1 }.goto i .done
  | .init => { s with state := .opening }.goto i .openPort

/-- `device_close`, up to the removal of the port. -/
def MachDevice.closeLock (s : MachDevice) (i : Nat) : MachDevice :=
  let s' := { s with openCount := short (s.openCount - 1), closed := s.closed + 1 }
  if s'.openCount > 0 then s'.goto i .done
  else if s'.state = .closing then s'.goto i .done
  else { s' with state := .closing }.goto i .closePort

/-- A call goes on. `ok` is the answer it gets: a port has been allocated, `d_open` has
succeeded. -/
def callStep (s : MachDevice) (i : Nat) (ok : Bool) : Call → Option MachDevice
  | .openLock => some (s.openLock i)
  | .openAsleep => none
  | .openPort =>
    if ok then
      let s' := { s with port := some s.nextPort, nextPort := s.nextPort + 1 }
      some ((s'.emit (.portAlloc s.nextPort)).goto i .openDriver)
    else some ({ s with port := none }.goto i .openReset)
  | .openDriver => some ((s.emit .openStart).goto i .openWait)
  | .openWait => some ((s.emit (.openEnd ok)).goto i (if ok then .openDone else .openFailed))
  | .openDone =>
    let s' := { s with openCount := 1, granted := 1, closed := 0 }
    some ((s'.goto i .done).become .opened)
  | .openFailed => some ({ s.portDealloc with port := none }.goto i .openReset)
  | .openReset => some ((s.goto i .done).become .init)
  | .closeLock => some (s.closeLock i)
  | .closePort => some (s.portDealloc.goto i .closeDriver)
  | .closeDriver => some ((s.emit .closeStart).goto i .closeWait)
  | .closeWait => some ((s.emit .closeEnd).goto i .closeDone)
  | .closeDone => some ((s.goto i .done).become .init)
  | .done => none

inductive Act
  | startOpen
  | startClose
  | call (i : Nat) (ok : Bool)
  | interrupt (i : Nat)

def step (s : MachDevice) : Act → Option MachDevice
  | .startOpen => some { s with calls := s.calls ++ [.openLock] }
  | .startClose => some { s with calls := s.calls ++ [.closeLock] }
  | .call i ok => (s.calls[i]?).bind (callStep s i ok)
  | .interrupt i => if s.calls[i]? = some .openAsleep then some (s.goto i .openLock) else none

/-- A device as `device_lookup` makes it. -/
def device (excl : Bool) : MachDevice := ⟨.init, excl, 0, false, none, [], 0, [], 0, 0⟩

def lts : Lts MachDevice Act where
  init s := ∃ excl, s = device excl
  step := step

end Mach.Device.OpenClose
