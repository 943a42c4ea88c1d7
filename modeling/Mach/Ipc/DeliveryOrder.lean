import Mach.Ipc.Mqueue

/-!
# Who comes first

One message and one receiver meet at a port that is otherwise idle, directly or when the port
is put into the set on which the receiver waits. Whether the message fits is decided in three
places: `ipc_mqueue_send` and `ipc_mqueue_move` compare the size of the kernel's message with
what the waiting receiver has asked for, `ipc_mqueue_receive` the size that the message of the
user will have.
-/

namespace Mach.Ipc.Queue

open Port State

/-- What there is to see for the thread `t` in the end: a message and its number, the
messages that are left in the queue, and its return codes. -/
def State.seen (s : State) (t : Nat) (mq : Mq) :
    Option Delivery × List Kmsg × List (Nat × MachMsgReturn) :=
  (s.taken.find? (·.thread = t), (s.mqueue mq).messages, s.returned.filter (·.1 = t))

def wake (s : State) (t : Nat) : Option State :=
  (step s (.pickup t)).orElse fun _ => step s (.giveUp t)

section

variable (s : State) (t u q n : Nat) (timeout : Option Nat) (h : Header) (o : SendOption)

/-- The receiver `t` waits for at most `n` bytes, and `u` sends. -/
def waitFirst : Option State :=
  (step s (.receive t (.port h.remotePort) n timeout)).bind fun s =>
    (step s (.send u h o)).bind fun s => wake s t

/-- The message is queued, and then `t` receives. -/
def sendFirst : Option State :=
  (step s (.send u h o)).bind fun s => step s (.receive t (.port h.remotePort) n timeout)

def moveToWaiting : Option State :=
  (step s (.receive t (.pset q) n timeout)).bind fun s => (step s (.send u h o)).bind fun s =>
    (step s (.psetAdd q h.remotePort)).bind fun s => wake s t

def moveFirst : Option State :=
  (step s (.send u h o)).bind fun s => (step s (.psetAdd q h.remotePort)).bind fun s =>
    step s (.receive t (.pset q) n timeout)

/-- Nothing goes on at the port or the set, `t` is in no routine, and the message can be
queued. -/
structure Idle : Prop where
  active : (s.port h.remotePort).active
  user : (s.port h.remotePort).kernel = false
  alone : (s.port h.remotePort).pset = none
  set : s.psetActive q
  passes : mayPass (s.port h.remotePort) h o
  plain : h.circular = false
  queue : s.mqueue (.port h.remotePort) = ⟨[], []⟩
  setQueue : s.mqueue (.pset q) = ⟨[], []⟩
  handed : s.handed.find? (·.thread = t) = none
  taken : s.taken.find? (·.thread = t) = none
  roused : s.roused.find? (·.1 = t) = none

def outcome (fits : Bool) : Option Delivery × List Kmsg × List (Nat × MachMsgReturn) :=
  let k : Kmsg := ⟨s.ghost.accepted.length, h⟩
  if fits then (some ⟨t, k, (s.port h.remotePort).seqno⟩, [], s.returned.filter (·.1 = t))
  else (none, [k], s.returned.filter (·.1 = t) ++ [(t, .rcvTooLarge)])

end

variable {s : State} {t u q n : Nat} {timeout : Option Nat} {h : Header} {o : SendOption}

/-! ## The four orders -/

-- each of them is executed, with the message fitting and not fitting

section

variable (hi : Idle s t q h o)
include hi

theorem waitFirst_seen (ht : timeout ≠ some 0) (hu : u ≠ t) :
    (waitFirst s t u n timeout h o).map (·.seen t (.port h.remotePort)) =
      some (outcome s t h (h.size ≤ n)) := by
  by_cases hn : h.size ≤ n <;>
    simp [waitFirst, wake, step, receivable, hi.active, hi.alone, receiveTurn, hi.queue, ht,
      ipcMqueueSend, hi.user, sendTurn, hi.passes, hi.plain, accept, State.setMqueue, State.setPort,
      queueOf, Port.queue, takeSlot, deposit, offer, hn, State.rouse, State.draw,
      State.ret, seen, outcome, List.find?_append, hi.handed, hi.taken, hi.roused, hu]

theorem sendFirst_seen (hu : u ≠ t) :
    (sendFirst s t u n timeout h o).map (·.seen t (.port h.remotePort)) =
      some (outcome s t h (h.usize ≤ n)) := by
  have hlt : (n < h.usize) = ¬ h.usize ≤ n := by rw [Nat.not_le]
  by_cases hn : h.usize ≤ n <;>
    simp [-Nat.not_le, hlt, sendFirst, step, receivable, hi.active, hi.alone, receiveTurn, hi.queue, ipcMqueueSend,
      hi.user, sendTurn, hi.passes, hi.plain, accept, State.setMqueue, State.setPort,
      queueOf, Port.queue, takeSlot, deposit, offer, hn, State.rouse,
      State.draw, State.ret, seen, outcome, List.find?_append, hi.taken, hu]

theorem moveToWaiting_seen (ht : timeout ≠ some 0) (hu : u ≠ t) :
    (moveToWaiting s t u q n timeout h o).map (·.seen t (.pset q)) =
      some (outcome s t h (h.size ≤ n)) := by
  by_cases hn : h.size ≤ n <;>
    simp [moveToWaiting, wake, step, receivable, hi.active, hi.alone, hi.set, receiveTurn, hi.queue,
      hi.setQueue, ht, ipcMqueueSend, hi.user, sendTurn, hi.passes, hi.plain, accept,
      State.setMqueue, State.setPort, queueOf, Port.queue, takeSlot, deposit, offer, hn,
      ipcPsetAdd, ipcMqueueMove, ipcMqueueChanged, State.rouse, State.draw, State.ret, seen,
      outcome, List.find?_append, hi.handed, hi.taken, hi.roused, hu]

theorem moveFirst_seen (hu : u ≠ t) : (moveFirst s t u q n timeout h o).map (·.seen t (.pset q)) =
      some (outcome s t h (h.usize ≤ n)) := by
  have hlt : (n < h.usize) = ¬ h.usize ≤ n := by rw [Nat.not_le]
  by_cases hn : h.usize ≤ n <;>
    simp [-Nat.not_le, hlt, moveFirst, step, receivable, hi.active, hi.alone, hi.set, receiveTurn, hi.queue,
      hi.setQueue, ipcMqueueSend, hi.user, sendTurn, hi.passes, hi.plain, accept,
      State.setMqueue, State.setPort, queueOf, Port.queue, takeSlot, deposit, offer, hn,
      ipcPsetAdd, ipcMqueueMove, ipcMqueueChanged, State.rouse, State.draw, State.ret, seen,
      outcome, List.find?_append, hi.taken, hu]

end

theorem outcome_eq_iff {a b : Bool} : outcome s t h a = outcome s t h b ↔ a = b := by
  cases a <;> cases b <;> simp [outcome]

/-- Two orders of the same steps end, and alike. -/
def Alike {α : Type} (a b : Option α) : Prop := ∃ x, a = some x ∧ b = some x

/-- **Delivery does not depend on who comes first** if the two sizes of the message are on
the same side of what the receiver asks for. -/
theorem order_irrelevant_iff (hi : Idle s t q h o) (ht : timeout ≠ some 0) (hu : u ≠ t) :
    (Alike ((waitFirst s t u n timeout h o).map (·.seen t (.port h.remotePort)))
        ((sendFirst s t u n timeout h o).map (·.seen t (.port h.remotePort))) ∧
      Alike ((moveToWaiting s t u q n timeout h o).map (·.seen t (.pset q)))
        ((moveFirst s t u q n timeout h o).map (·.seen t (.pset q)))) ↔
      (h.size ≤ n ↔ h.usize ≤ n) := by
  rw [waitFirst_seen hi ht hu, sendFirst_seen hi hu, moveToWaiting_seen hi ht hu,
    moveFirst_seen hi hu]
  have halike : Alike (some (outcome s t h (h.size ≤ n))) (some (outcome s t h (h.usize ≤ n))) ↔
      (h.size ≤ n ↔ h.usize ≤ n) := by
    constructor
    · intro ⟨x, h1, h2⟩
      exact decide_eq_decide.mp (outcome_eq_iff.mp (Option.some.inj (h1.trans h2.symm)))
    · intro hsame
      exact ⟨_, rfl, by rw [decide_eq_decide.mpr hsame]⟩
  rw [halike, and_self]

def still : State where
  mqueue := fun _ => ⟨[], []⟩
  port := fun _ => ⟨true, false, none, 0, 0, 5, [], []⟩
  psetActive := fun _ => true
  handed := []
  taken := []
  received := []
  roused := []
  returned := []
  ghost := ⟨fun _ => 0, [], []⟩

def headerOnly : Header := ⟨7, 32, 24, false, false⟩

theorem still_idle : Idle still 1 0 headerOnly ⟨false, none⟩ :=
  ⟨rfl, rfl, rfl, rfl, rfl, rfl, rfl, rfl, rfl, rfl, rfl⟩

theorem still_order : Alike
    ((waitFirst still 1 2 32 none headerOnly ⟨false, none⟩).map (·.seen 1 (.port 7)))
    ((sendFirst still 1 2 32 none headerOnly ⟨false, none⟩).map (·.seen 1 (.port 7))) :=
  ((order_irrelevant_iff still_idle (nofun : none ≠ some 0) (by decide)).mpr (by decide)).1

/-- Who waits with room for 24 bytes is refused; who comes later gets the message. -/
theorem still_order_matters :
    (waitFirst still 1 2 24 none headerOnly ⟨false, none⟩).map (·.seen 1 (.port 7)) =
      some (none, [⟨0, headerOnly⟩], [(1, .rcvTooLarge)]) ∧
    (sendFirst still 1 2 24 none headerOnly ⟨false, none⟩).map (·.seen 1 (.port 7)) =
      some (some ⟨1, ⟨0, headerOnly⟩, 0⟩, [], []) :=
  ⟨rfl, rfl⟩

end Mach.Ipc.Queue
