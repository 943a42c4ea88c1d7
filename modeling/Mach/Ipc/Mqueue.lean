import Mathlib.Algebra.Group.Nat.Defs
import Mach.Lib.Transition

/-!
# Message queues, blocked senders and waiting receivers

Ports and port sets each own an `ipc_mqueue`: the queued messages and the
threads waiting for one. This file embeds `ipc/ipc_mqueue.c` with the parts of
`ipc/ipc_pset.c` and `ipc/ipc_port.c` that touch the queues, as a transition
system whose actions are the locked sections of those routines: between two
actions any other thread may run.

A thread that sleeps is represented by what the routine it sleeps in will read
back: a blocked sender by its message and options (`Sender`), a waiting receiver
by its `ith_msize` and timeout (`Receiver`), a receiver that was given a message
by a `Delivery`. `ipc_thread_enqueue` pushes on the head of the list, so both
kinds of thread queue are stacks; `ipc_kmsg_enqueue` appends.

The fields under `Ghost` are the history the statements speak about; no section
reads them.
-/

namespace Mach.Ipc.Queue

open Function

/-- The `mach_msg_return_t` codes the queue routines produce. -/
inductive MachMsgReturn
  | success | sendTimedOut | sendInterrupted
  | rcvTooLarge | rcvTimedOut | rcvInterrupted | rcvPortDied | rcvPortChanged
  deriving DecidableEq

/-- What the queues read of a message header: `msgh_remote_port`, `msgh_size`,
`msg_usize`, and the bits saying that the destination is a send-once right and
that the message is circular. -/
structure Header where
  remotePort : Nat
  size : Nat
  usize : Nat
  sendOnce : Bool
  circular : Bool
  deriving DecidableEq

/-- An accepted message; `ikm` tells messages with equal headers apart (it is
the message's position in the order of acceptance). -/
structure Kmsg where
  ikm : Nat
  header : Header
  deriving DecidableEq

/-- `MACH_SEND_ALWAYS` and, under `MACH_SEND_TIMEOUT`, the timeout. -/
structure SendOption where
  always : Bool
  timeout : Option Nat
  deriving DecidableEq

/-- A thread inside `ipc_mqueue_send` that sleeps or was just woken. -/
structure Sender where
  thread : Nat
  header : Header
  option : SendOption
  deriving DecidableEq

/-- A thread waiting in `ipc_mqueue_receive`. -/
structure Receiver where
  thread : Nat
  msize : Nat
  timeout : Option Nat
  deriving DecidableEq

structure Delivery where
  thread : Nat
  kmsg : Kmsg
  seqno : Nat
  deriving DecidableEq

/-- `struct ipc_mqueue`. -/
structure Mqueue where
  messages : List Kmsg
  threads : List Receiver
  deriving DecidableEq

inductive Mq
  | port (p : Nat)
  | pset (q : Nat)
  deriving DecidableEq

/-- The fields of `struct ipc_port` the queues use. `woken` holds the senders
taken off `ip_blocked` with `ith_state == MACH_MSG_SUCCESS` that have not run
yet; `kernel` is `ip_receiver == ipc_space_kernel`. -/
structure Port where
  active : Bool
  kernel : Bool
  pset : Option Nat
  seqno : Nat
  msgcount : Nat
  qlimit : Nat
  blocked : List Sender
  woken : List Sender
  deriving DecidableEq

def Port.queue (x : Port) (p : Nat) : Mq :=
  match x.pset with
  | none => .port p
  | some q => .pset q

/-- `port->ip_seqno++` on a 32-bit counter. -/
def Port.nextSeqno (x : Port) : Port := { x with seqno := (x.seqno + 1) % 2 ^ 32 }

/-- `port->ip_msgcount++`. -/
def Port.takeSlot (x : Port) : Port := { x with msgcount := x.msgcount + 1 }

/-- History: the initial sequence numbers, the messages accepted while their
port was alive, and the deliveries in the order the sequence numbers were drawn. -/
structure Ghost where
  seqno0 : Nat → Nat
  accepted : List Kmsg
  delivered : List Delivery

/-- The state of the queues. A delivery is first `handed` to a sleeping
receiver or `taken` off the queue by a running one, and is `received` once
`ipc_mqueue_receive` returns it; `roused` are the receivers woken without a
message, and `returned` logs the return codes. -/
structure State where
  mqueue : Mq → Mqueue
  port : Nat → Port
  psetActive : Nat → Bool
  handed : List Delivery
  taken : List Delivery
  received : List Delivery
  roused : List (Nat × MachMsgReturn)
  returned : List (Nat × MachMsgReturn)
  ghost : Ghost

namespace State

def setPort (s : State) (p : Nat) (x : Port) : State :=
  { s with port := update s.port p x }

def setMqueue (s : State) (mq : Mq) (x : Mqueue) : State :=
  { s with mqueue := update s.mqueue mq x }

def ret (s : State) (t : Nat) (mr : MachMsgReturn) : State :=
  { s with returned := s.returned ++ [(t, mr)] }

def rouse (s : State) (rs : List Receiver) (mr : MachMsgReturn) : State :=
  { s with roused := s.roused ++ rs.map fun r => (r.thread, mr) }

def queueOf (s : State) (p : Nat) : Mq := (s.port p).queue p

/-- `seqno = port->ip_seqno++`, drawn for the delivery of `k` to thread `t`. -/
def draw (s : State) (t : Nat) (k : Kmsg) : Delivery × State :=
  let p := k.header.remotePort
  let d : Delivery := ⟨t, k, (s.port p).seqno⟩
  (d, { s.setPort p (s.port p).nextSeqno with
    ghost := { s.ghost with delivered := s.ghost.delivered ++ [d] } })

end State

/-! ## Giving a message to a queue -/

/-- The receiver loop: waiting threads are dequeued until one can take a message
of this size. Returns the threads refused as too small, the successful one and
the threads still waiting. -/
def offer (size : Nat) : List Receiver → List Receiver × Option Receiver × List Receiver
  | [] => ([], none, [])
  | r :: rs =>
    if size ≤ r.msize then ([], some r, rs)
    else
      let (bad, hit, rest) := offer size rs
      (r :: bad, hit, rest)

/-- Offer `k` to the receivers of `mq`, or queue it when none can take it. This
is the loop at the end of `ipc_mqueue_send` and the body of `ipc_mqueue_move`. -/
def deposit (s : State) (mq : Mq) (k : Kmsg) : State :=
  match offer k.header.size (s.mqueue mq).threads with
  | (bad, none, rest) =>
    (s.rouse bad .rcvTooLarge).setMqueue mq ⟨(s.mqueue mq).messages ++ [k], rest⟩
  | (bad, some r, rest) =>
    let s := (s.rouse bad .rcvTooLarge).setMqueue mq ⟨(s.mqueue mq).messages, rest⟩
    let (d, s) := s.draw r.thread k
    { s with handed := s.handed ++ [d] }

/-- `ipc_mqueue_move`: move the messages sent to `port` from one queue to
another. They leave `source` in queue order and are deposited one by one. -/
def ipcMqueueMove (s : State) (dest source : Mq) (port : Nat) : State :=
  let old := (s.mqueue source).messages
  let s := s.setMqueue source
    ⟨old.filter (·.header.remotePort ≠ port), (s.mqueue source).threads⟩
  (old.filter (·.header.remotePort = port)).foldl (deposit · dest ·) s

/-- `ipc_mqueue_changed`: wake every receiver waiting in a queue. -/
def ipcMqueueChanged (s : State) (mq : Mq) (mr : MachMsgReturn) : State :=
  (s.rouse (s.mqueue mq).threads mr).setMqueue mq ⟨(s.mqueue mq).messages, []⟩

/-! ## Sending -/

/-- `ipc_mqueue_send` returned `MACH_MSG_SUCCESS` for a live port. -/
def accept (s : State) (h : Header) : Kmsg × State :=
  let k : Kmsg := ⟨s.ghost.accepted.length, h⟩
  (k, { s with ghost := { s.ghost with accepted := s.ghost.accepted ++ [k] } })

/-- The three reasons not to block: the port is under its queue limit, the
caller insists, or the message goes to a send-once right. -/
def mayPass (port : Port) (h : Header) (option : SendOption) : Bool :=
  decide (port.msgcount < port.qlimit) || option.always || h.sendOnce

/-- One turn of the loop of `ipc_mqueue_send` and, when it is left, the rest of
the routine. -/
def sendTurn (s : State) (t : Nat) (h : Header) (option : SendOption) : State :=
  let p := h.remotePort
  let port := s.port p
  -- a dead port: pretend the message got sent and was then destroyed
  if ¬ port.active then s.ret t .success
  else if mayPass port h option then
    let (k, s) := accept s h
    -- a circular message is destroyed here
    if h.circular then s.ret t .success
    else
      let s := s.setPort p port.takeSlot
      (deposit s (s.queueOf p) k).ret t .success
  else if option.timeout = some 0 then s.ret t .sendTimedOut
  else s.setPort p { port with blocked := ⟨t, h, option⟩ :: port.blocked }

/-- `ipc_mqueue_send`: a kernel port is served directly, any other port goes
through the loop. -/
def ipcMqueueSend (s : State) (t : Nat) (h : Header) (option : SendOption) : State :=
  if (s.port h.remotePort).kernel then (accept s h).2.ret t .success
  else sendTurn s t h option

/-! ## Receiving -/

/-- One turn of the loop of `ipc_mqueue_receive`, with the queue locked. -/
def receiveTurn (s : State) (t : Nat) (mq : Mq) (maxSize : Nat) (timeout : Option Nat) :
    State :=
  match (s.mqueue mq).messages with
  | k :: ks =>
    if maxSize < k.header.usize then s.ret t .rcvTooLarge
    else
      let s := s.setMqueue mq ⟨ks, (s.mqueue mq).threads⟩
      let (d, s) := s.draw t k
      { s with taken := s.taken ++ [d] }
  | [] =>
    if timeout = some 0 then s.ret t .rcvTimedOut
    else s.setMqueue mq ⟨[], ⟨t, maxSize, timeout⟩ :: (s.mqueue mq).threads⟩

/-- The condition of `ipc_mqueue_receive` on its queue, established by
`ipc_mqueue_copyin`: the port or set is active, and the port is in no set. -/
def receivable (s : State) : Mq → Bool
  | .port p => (s.port p).active && (s.port p).pset.isNone
  | .pset q => s.psetActive q

/-- The last section of `ipc_mqueue_receive`: the port gives a message back and,
if that puts it under its limit, wakes the first blocked sender. -/
def releaseSlot (port : Port) : Port :=
  let msgcount := port.msgcount - 1
  match port.blocked with
  | snd :: rest =>
    if msgcount < port.qlimit then
      { port with msgcount := msgcount, blocked := rest, woken := port.woken ++ [snd] }
    else { port with msgcount := msgcount }
  | [] => { port with msgcount := msgcount }

def finishReceive (s : State) (d : Delivery) : State :=
  let p := d.kmsg.header.remotePort
  let s := { s with taken := s.taken.erase d, received := s.received ++ [d] }
  let s := s.ret d.thread .success
  if (s.port p).active then s.setPort p (releaseSlot (s.port p)) else s

/-! ## Port sets, limits and death -/

/-- `ipc_pset_add`. -/
def ipcPsetAdd (s : State) (q p : Nat) : State :=
  let s := s.setPort p { s.port p with pset := some q }
  let s := ipcMqueueMove s (.pset q) (.port p) p
  ipcMqueueChanged s (.port p) .rcvPortChanged

/-- `ipc_pset_remove`. -/
def ipcPsetRemove (s : State) (q p : Nat) : State :=
  let s := s.setPort p { s.port p with pset := none }
  ipcMqueueMove s (.port p) (.pset q) p

/-- `ipc_pset_destroy`: the members stay in the dead set and leave it lazily. -/
def ipcPsetDestroy (s : State) (q : Nat) : State :=
  ipcMqueueChanged { s with psetActive := update s.psetActive q false }
    (.pset q) .rcvPortDied

/-- `ipc_port_set_qlimit`: a raised limit wakes as many senders as it admits. -/
def ipcPortSetQlimit (port : Port) (qlimit : Nat) : Port :=
  let wakeup := qlimit - port.qlimit
  { port with
    qlimit := qlimit
    blocked := port.blocked.drop wakeup
    woken := port.woken ++ port.blocked.take wakeup }

/-- `ipc_port_clear_receiver`, as far as it touches queues. -/
def ipcPortClearReceiver (s : State) (p : Nat) : State :=
  let s :=
    match (s.port p).pset with
    | some q => ipcPsetRemove s q p
    | none => ipcMqueueChanged s (.port p) .rcvPortDied
  s.setPort p { s.port p with seqno := 0 }

/-- `ipc_port_destroy` of a port without a backup: blocked senders are roused,
the port dies and its queued messages are destroyed. -/
def ipcPortDestroy (s : State) (p : Nat) : State :=
  let s := ipcPortClearReceiver s p
  let port := s.port p
  let s := s.setPort p
    { port with active := false, blocked := [], woken := port.woken ++ port.blocked }
  s.setMqueue (.port p) ⟨[], (s.mqueue (.port p)).threads⟩

/-! ## What the small updates leave alone -/

namespace State

variable (s : State) (p q : Nat) (x : Port) (mq mq' : Mq) (m : Mqueue) (t : Nat)

theorem setPort_port : (s.setPort p x).port q = if q = p then x else s.port q := by
  simp [setPort, update_apply]

@[simp] theorem setPort_port_self : (s.setPort p x).port p = x := by
  simp [setPort]


@[simp] theorem setMqueue_port : (s.setMqueue mq m).port = s.port := rfl

theorem setMqueue_mqueue :
    (s.setMqueue mq m).mqueue mq' = if mq' = mq then m else s.mqueue mq' := by
  simp [setMqueue, update_apply]

@[simp] theorem ret_port (mr : MachMsgReturn) : (s.ret t mr).port = s.port := rfl

@[simp] theorem rouse_port (rs : List Receiver) (mr : MachMsgReturn) :
    (s.rouse rs mr).port = s.port := rfl

end State

@[simp] theorem accept_port (s : State) (h : Header) : (accept s h).2.port = s.port := rfl

/-! ## The transition system -/

inductive Action
  /-- a thread enters `ipc_mqueue_send` -/
  | send (t : Nat) (h : Header) (option : SendOption)
  | resume (p t : Nat)
  | sendTimeout (p t : Nat)
  | sendInterrupt (p t : Nat)
  /-- a thread enters `ipc_mqueue_receive` -/
  | receive (t : Nat) (mq : Mq) (maxSize : Nat) (timeout : Option Nat)
  | pickup (t : Nat)
  /-- a receiver woken with another `ith_state` runs again -/
  | giveUp (t : Nat)
  | rcvTimeout (mq : Mq) (t : Nat)
  | rcvInterrupt (mq : Mq) (t : Nat)
  /-- the last section of `ipc_mqueue_receive` -/
  | finish (t : Nat)
  | psetAdd (q p : Nat)
  | psetRemove (p : Nat)
  | psetDestroy (q : Nat)
  | setQlimit (p qlimit : Nat)
  | portDestroy (p : Nat)
  deriving DecidableEq

def step (s : State) : Action → Option State
  | .send t h option => some (ipcMqueueSend s t h option)
  | .resume p t =>
    match (s.port p).woken.find? (·.thread = t) with
    | none => none
    | some x =>
      let s := s.setPort p { s.port p with woken := (s.port p).woken.erase x }
      some (sendTurn s t x.header x.option)
  | .sendTimeout p t =>
    match (s.port p).blocked.find? (·.thread = t) with
    | none => none
    | some x =>
      if x.option.timeout.isNone then none
      else
        -- time_out = 0 and around the loop once more
        let s := s.setPort p { s.port p with blocked := (s.port p).blocked.erase x }
        some (sendTurn s t x.header { x.option with timeout := some 0 })
  | .sendInterrupt p t =>
    match (s.port p).blocked.find? (·.thread = t) with
    | none => none
    | some x =>
      let s := s.setPort p { s.port p with blocked := (s.port p).blocked.erase x }
      some (s.ret t .sendInterrupted)
  | .receive t mq maxSize timeout =>
    if receivable s mq then some (receiveTurn s t mq maxSize timeout) else none
  | .pickup t =>
    match s.handed.find? (·.thread = t) with
    | none => none
    | some d => some { s with handed := s.handed.erase d, taken := s.taken ++ [d] }
  | .giveUp t =>
    match s.roused.find? (·.1 = t) with
    | none => none
    | some r => some ({ s with roused := s.roused.erase r }.ret t r.2)
  | .rcvTimeout mq t =>
    match (s.mqueue mq).threads.find? (·.thread = t) with
    | none => none
    | some r =>
      if r.timeout.isNone then none
      else
        let s := s.setMqueue mq ⟨(s.mqueue mq).messages, (s.mqueue mq).threads.erase r⟩
        some (receiveTurn s t mq r.msize (some 0))
  | .rcvInterrupt mq t =>
    match (s.mqueue mq).threads.find? (·.thread = t) with
    | none => none
    | some r =>
      let s := s.setMqueue mq ⟨(s.mqueue mq).messages, (s.mqueue mq).threads.erase r⟩
      some (s.ret t .rcvInterrupted)
  | .finish t =>
    match s.taken.find? (·.thread = t) with
    | none => none
    | some d => some (finishReceive s d)
  | .psetAdd q p =>
    if (s.port p).active ∧ (s.port p).pset = none ∧ s.psetActive q then
      some (ipcPsetAdd s q p)
    else none
  | .psetRemove p =>
    match (s.port p).pset with
    | none => none
    | some q => if (s.port p).active then some (ipcPsetRemove s q p) else none
  | .psetDestroy q => if s.psetActive q then some (ipcPsetDestroy s q) else none
  | .setQlimit p qlimit =>
    if (s.port p).active then some (s.setPort p (ipcPortSetQlimit (s.port p) qlimit))
    else none
  | .portDestroy p => if (s.port p).active then some (ipcPortDestroy s p) else none

/-- The steps of the system, one constructor for each enabled action: `step_inv`
turns an equation about `step` into one of these. -/
inductive Step (s : State) : Action → State → Prop
  | send (t : Nat) (h : Header) (o : SendOption) :
      Step s (.send t h o) (ipcMqueueSend s t h o)
  | resume {p t : Nat} {x : Sender} (hx : (s.port p).woken.find? (·.thread = t) = some x) :
      Step s (.resume p t)
        (sendTurn (s.setPort p { s.port p with woken := (s.port p).woken.erase x })
          t x.header x.option)
  | sendTimeout {p t : Nat} {x : Sender}
      (hx : (s.port p).blocked.find? (·.thread = t) = some x) :
      Step s (.sendTimeout p t)
        (sendTurn (s.setPort p { s.port p with blocked := (s.port p).blocked.erase x })
          t x.header { x.option with timeout := some 0 })
  | sendInterrupt {p t : Nat} {x : Sender}
      (hx : (s.port p).blocked.find? (·.thread = t) = some x) :
      Step s (.sendInterrupt p t)
        ((s.setPort p { s.port p with blocked := (s.port p).blocked.erase x }).ret t
          .sendInterrupted)
  | receive (t : Nat) {mq : Mq} (n : Nat) (tmo : Option Nat) (hr : receivable s mq) :
      Step s (.receive t mq n tmo) (receiveTurn s t mq n tmo)
  | pickup {t : Nat} {d : Delivery} (hd : s.handed.find? (·.thread = t) = some d) :
      Step s (.pickup t) { s with handed := s.handed.erase d, taken := s.taken ++ [d] }
  | giveUp {t : Nat} {r : Nat × MachMsgReturn} (hr : s.roused.find? (·.1 = t) = some r) :
      Step s (.giveUp t) ({ s with roused := s.roused.erase r }.ret t r.2)
  | rcvTimeout {mq : Mq} {t : Nat} {r : Receiver}
      (hr : (s.mqueue mq).threads.find? (·.thread = t) = some r) :
      Step s (.rcvTimeout mq t)
        (receiveTurn
          (s.setMqueue mq ⟨(s.mqueue mq).messages, (s.mqueue mq).threads.erase r⟩)
          t mq r.msize (some 0))
  | rcvInterrupt {mq : Mq} {t : Nat} {r : Receiver}
      (hr : (s.mqueue mq).threads.find? (·.thread = t) = some r) :
      Step s (.rcvInterrupt mq t)
        ((s.setMqueue mq ⟨(s.mqueue mq).messages, (s.mqueue mq).threads.erase r⟩).ret t
          .rcvInterrupted)
  | finish {t : Nat} {d : Delivery} (hd : s.taken.find? (·.thread = t) = some d) :
      Step s (.finish t) (finishReceive s d)
  | psetAdd {q p : Nat} (ha : (s.port p).active) (hp : (s.port p).pset = none) :
      Step s (.psetAdd q p) (ipcPsetAdd s q p)
  | psetRemove {q p : Nat} (hp : (s.port p).pset = some q) (ha : (s.port p).active) :
      Step s (.psetRemove p) (ipcPsetRemove s q p)
  | psetDestroy (q : Nat) : Step s (.psetDestroy q) (ipcPsetDestroy s q)
  | setQlimit {p : Nat} (n : Nat) (ha : (s.port p).active) :
      Step s (.setQlimit p n) (s.setPort p (ipcPortSetQlimit (s.port p) n))
  | portDestroy {p : Nat} (ha : (s.port p).active) :
      Step s (.portDestroy p) (ipcPortDestroy s p)

theorem step_inv {s s' : State} {a : Action} (h : step s a = some s') : Step s a s' := by
  cases a <;> simp only [step] at h
  case send => cases h; exact .send ..
  case resume => split at h <;> cases h; exact .resume ‹_›
  case sendTimeout =>
    split at h
    · cases h
    · split at h <;> cases h
      exact .sendTimeout ‹_›
  case sendInterrupt => split at h <;> cases h; exact .sendInterrupt ‹_›
  case receive => split at h <;> cases h; exact .receive _ _ _ ‹_›
  case pickup => split at h <;> cases h; exact .pickup ‹_›
  case giveUp => split at h <;> cases h; exact .giveUp ‹_›
  case rcvTimeout =>
    split at h
    · cases h
    · split at h <;> cases h
      exact .rcvTimeout ‹_›
  case rcvInterrupt => split at h <;> cases h; exact .rcvInterrupt ‹_›
  case finish => split at h <;> cases h; exact .finish ‹_›
  case psetAdd =>
    split at h
    next hg => cases h; exact .psetAdd hg.1 hg.2.1
    next => cases h
  case psetRemove =>
    split at h
    · cases h
    · split at h <;> cases h
      exact .psetRemove ‹_› ‹_›
  case psetDestroy => split at h <;> cases h; exact .psetDestroy _
  case setQlimit => split at h <;> cases h; exact .setQlimit _ ‹_›
  case portDestroy => split at h <;> cases h; exact .portDestroy ‹_›

/-- Empty queues and no thread inside a routine; limits, initial sequence numbers
and the ports and sets that exist are arbitrary. -/
def init (s : State) : Prop :=
  (∀ mq, s.mqueue mq = ⟨[], []⟩) ∧
  (∀ p, (s.port p).pset = none ∧ (s.port p).msgcount = 0 ∧ (s.port p).blocked = [] ∧
    (s.port p).woken = [] ∧ (s.port p).seqno < 2 ^ 32 ∧
    s.ghost.seqno0 p = (s.port p).seqno) ∧
  s.handed = [] ∧ s.taken = [] ∧ s.received = [] ∧
  s.ghost.accepted = [] ∧ s.ghost.delivered = []

def lts : Lib.Lts State Action := ⟨init, step⟩

end Mach.Ipc.Queue
