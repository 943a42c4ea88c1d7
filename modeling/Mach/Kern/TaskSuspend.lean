import Mach.Lib.CInt
import Mach.Lib.Transition

/-!
# Suspending a task

`task_suspend` and `task_resume`, `task_hold` and `task_release` of `kern/task.c`, with
`thread_create` and the holds on single threads.

Calls are in progress side by side, as in the suspension of a thread. A section that holds
the lock of the task runs as one step, except where it goes over the threads of the task:
each thread is locked by itself there, and others may hold or release threads in between.

The counts of the source are of type `int`.
-/

namespace Mach.Kern.TaskSuspend

open Mach.Lib

/-- A thread of the task. `own` counts the holds on it that are not the task's. -/
structure Thread where
  suspendCount : Int
  /-- `TH_SUSP`. -/
  susp : Bool
  own : Nat
deriving DecidableEq

/-- `thread_hold`. -/
def Thread.hold (t : Thread) : Thread :=
  { t with suspendCount := int (t.suspendCount + 1), susp := true }

/-- `thread_release`. -/
def Thread.release (t : Thread) : Thread :=
  let n := int (t.suspendCount - 1)
  { t with suspendCount := n, susp := t.susp && n ≠ 0 }

/-- Whom `task_hold` is called for: `task_suspend`, by a thread of the task or not, or a
holder of the task. -/
inductive Holder
  | suspend (self : Option Nat)
  | hold
deriving DecidableEq

inductive Call
  | suspend (self : Option Nat)
  /-- `task_suspend` has counted and is about to hold the task. -/
  | suspendHold (self : Option Nat)
  /-- `task_suspend` waits for the threads to stop. -/
  | suspendDowait (self : Option Nat)
  /-- `task_suspend` is about to hold the thread that has called it. -/
  | suspendSelf (self : Nat)
  /-- `task_hold` by the given thread of the task, or by one of another task. -/
  | hold (cur : Option Nat)
  /-- In `task_hold`, with the task locked and these threads to go. -/
  | holding (h : Holder) (rest : List Nat)
  /-- `task_hold` has returned. -/
  | held
  | resume
  /-- `task_resume` has counted and is about to release the task. -/
  | resumeRelease
  /-- In `task_release`, with the task locked and these threads to go. -/
  | releasing (rest : List Nat)
  | done
deriving DecidableEq

structure Task where
  userStopCount : Int
  suspendCount : Int
  threads : List Thread
  locked : Bool
  calls : List Call

def Task.goto (s : Task) (i : Nat) (c : Call) : Task := { s with calls := s.calls.set i c }

def Task.others (s : Task) (cur : Option Nat) : List Nat :=
  (List.range s.threads.length).filter fun j => cur ≠ some j

/-- `task_hold`, up to its loop. -/
def Task.startHold (s : Task) (i : Nat) (h : Holder) (cur : Option Nat) : Task :=
  { s with suspendCount := int (s.suspendCount + 1), locked := true }.goto i (.holding h (s.others cur))

/-- `task_release`, up to its loop. -/
def Task.startRelease (s : Task) (i : Nat) : Task :=
  { s with suspendCount := int (s.suspendCount - 1), locked := true }.goto i
    (.releasing (List.range s.threads.length))

def Task.onThread (s : Task) (j : Nat) (f : Thread → Thread) : Option Task :=
  (s.threads[j]?).map fun t => { s with threads := s.threads.set j (f t) }

/-- Where `task_hold` returns to. -/
def Holder.next : Holder → Call
  | .suspend self => .suspendDowait self
  | .hold => .held

def callStep (s : Task) (i : Nat) : Call → Option Task
  | .suspend self =>
    if s.locked then none
    else
      let s' := { s with userStopCount := int (s.userStopCount + 1) }
      some (s'.goto i (if s.userStopCount = 0 then .suspendHold self else .done))
  | .suspendHold self => if s.locked then none else some (s.startHold i (.suspend self) self)
  | .suspendDowait none => some (s.goto i .done)
  | .suspendDowait (some j) => some (s.goto i (.suspendSelf j))
  | .suspendSelf j => (s.onThread j Thread.hold).map fun s => s.goto i .done
  | .hold cur => if s.locked then none else some (s.startHold i .hold cur)
  | .holding h [] => some ({ s with locked := false }.goto i h.next)
  | .holding h (j :: rest) =>
    (s.onThread j Thread.hold).map fun s => s.goto i (.holding h rest)
  | .held => if s.locked then none else some (s.startRelease i)
  | .resume =>
    if s.locked then none
    else if s.userStopCount > 0 then
      let s' := { s with userStopCount := int (s.userStopCount - 1) }
      some (s'.goto i (if s'.userStopCount = 0 then .resumeRelease else .done))
    else some (s.goto i .done)
  | .resumeRelease => if s.locked then none else some (s.startRelease i)
  | .releasing [] => some ({ s with locked := false }.goto i .done)
  | .releasing (j :: rest) =>
    (s.onThread j Thread.release).map fun s => s.goto i (.releasing rest)
  | .done => none

def Task.admits (s : Task) : Call → Bool
  | .suspend cur | .hold cur => cur.all (· < s.threads.length)
  | .resume => true
  | _ => false

/-- `thread_create`: the thread starts with the holds of the task and one of its own, and
another one if its processor set is empty. -/
def Task.create (s : Task) (emptySet : Bool) : Task :=
  let count := int (s.suspendCount + 1)
  { s with threads := s.threads ++
    [if emptySet then ⟨int (count + 1), true, 2⟩ else ⟨count, true, 1⟩] }

inductive Act
  | start (c : Call)
  | call (i : Nat)
  | create (emptySet : Bool)
  | threadHold (j : Nat)
  | threadRelease (j : Nat)

def step (s : Task) : Act → Option Task
  | .start c => if s.admits c then some { s with calls := s.calls ++ [c] } else none
  | .call i => (s.calls[i]?).bind (callStep s i)
  | .create emptySet => if s.locked then none else some (s.create emptySet)
  | .threadHold j => s.onThread j fun t => { t.hold with own := t.own + 1 }
  | .threadRelease j =>
    if (s.threads[j]?).any fun t => 0 < t.own then
      s.onThread j fun t => { t.release with own := t.own - 1 }
    else none

def lts : Lts Task Act where
  init s := s.userStopCount = 0 ∧ s.suspendCount = 0 ∧ s.locked = false ∧ s.calls = [] ∧
    ∀ t ∈ s.threads, t.suspendCount = t.own ∧ t.suspendCount ≤ intMax ∧ t.susp = (0 < t.own : Bool)
  step := step

end Mach.Kern.TaskSuspend
