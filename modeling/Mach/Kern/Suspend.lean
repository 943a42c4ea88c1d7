import Mach.Lib.CInt
import Mach.Lib.Transition

/-!
# Suspending a thread

The parts of `kern/thread.c` that stop a thread and let it go on, against what the thread
does itself and what the scheduler does with it (`kern/sched_prim.c`).

One thread is the target. Any number of calls on it are in progress (`Sys.calls`), each at
one of the points between the sections of its code that hold the thread's lock; a step runs
one such section. The target runs, waits and is dispatched by steps of its own. A call that
sleeps goes on when the event it sleeps on comes, or at any time by an interruption.
-/

namespace Mach.Kern.Suspend

open Mach.Lib

/-! ## The target -/

/-- Where a thread is: on a run queue, chosen from it and on the way to a processor (or
waiting for a stack), on a processor, or nowhere of these. -/
inductive Place
  | off
  | runq
  | going
  | cpu
deriving DecidableEq

/-- The fields of a thread that matter here. The first five are bits of its `state`. -/
structure Thread where
  run : Bool
  wait : Bool
  susp : Bool
  unint : Bool
  halted : Bool
  place : Place
  /-- an `int`, like the next one -/
  userStopCount : Int
  suspendCount : Int
  wakeActive : Bool
  /-- `AST_HALT`. -/
  astHalt : Bool
  /-- It has seen `AST_HALT` and is on its way into `thread_halt_self`. -/
  halting : Bool
deriving DecidableEq

/-- `thread_setrun`. -/
def Thread.setrun (t : Thread) : Thread := { t with place := .runq }

/-- `thread_hold`, and the same lines elsewhere. -/
def Thread.hold (t : Thread) : Thread :=
  { t with suspendCount := int (t.suspendCount + 1), susp := true }

/-- `thread_release`, and the same lines in `thread_resume`. -/
def Thread.release (t : Thread) : Thread :=
  let t := { t with suspendCount := int (t.suspendCount - 1) }
  if t.suspendCount = 0 then
    let t := { t with susp := false, halted := false }
    -- was only suspended
    if ¬ t.wait ∧ ¬ t.run then { t with run := true }.setrun else t
  else t

/-- `clear_wait` and `thread_wakeup_prim`, once the thread is off the wait queue. -/
def Thread.clearWait (t : Thread) (interruptOnly : Bool) : Thread :=
  if interruptOnly ∧ t.unint then t
  else if t.wait then
    -- sleeping and not suspendable
    if ¬ t.run ∧ (t.unint ∨ ¬ t.susp) then { t with wait := false, run := true }.setrun
    -- either already running, or suspended
    else { t with wait := false }
  else t

/-! ## Calls -/

inductive Sleep
  | asleep
  | awake (awakened : Bool)
deriving DecidableEq

/-- Whom `thread_dowait` is called for. -/
inductive Waiter
  /-- `thread_suspend`, which has counted in this period of suspension. -/
  | suspend (period : Nat)
  /-- The caller of `thread_hold`. -/
  | hold
  /-- `thread_halt`. -/
  | halt (must : Bool)
deriving DecidableEq

inductive Call
  /-- `thread_suspend`, waiting for the thread to be interruptible; by the thread itself or
  not. -/
  | suspend (self : Bool)
  /-- `thread_suspend` of another thread has returned. -/
  | suspended (period : Nat)
  /-- After `thread_hold`. -/
  | held
  /-- After `thread_hold` and `thread_dowait`. -/
  | stopped
  /-- In `thread_dowait`. -/
  | dowait (w : Waiter) (sleep : Sleep)
  /-- In `thread_dowait`, with others to wake up. -/
  | notify (w : Waiter)
  /-- At the start of `thread_halt`. -/
  | halt (must : Bool)
  /-- `thread_halt`, waiting for someone else's. -/
  | haltSleep (must : Bool) (sleep : Sleep)
  | haltLock (must : Bool)
  /-- `thread_dowait` has returned to `thread_halt`. -/
  | haltClear (must : Bool)
  | haltCheck (must : Bool)
  | haltMark
  | haltForce (must : Bool)
  /-- `thread_dowait` has failed. -/
  | haltFailed
  /-- `thread_halt` gives its hold back. -/
  | haltRelease
  /-- `thread_halt` has returned with a hold. -/
  | haltReturned
  | done
deriving DecidableEq

def Call.holds : Call → Bool
  | .held | .stopped | .haltSleep _ _ | .haltLock _ | .haltClear _ | .haltCheck _ | .haltMark
  | .haltForce _ | .haltFailed | .haltRelease | .haltReturned => true
  | .dowait w _ | .notify w =>
    match w with
    | .suspend _ => false
    | .hold | .halt _ => true
  | .suspend _ | .suspended _ | .halt _ | .done => false

/-- Awakes a call that sleeps on `TH_EV_WAKE_ACTIVE`. -/
def Call.wake (awakened : Bool) : Call → Call
  | .dowait w .asleep => .dowait w (.awake awakened)
  | .haltSleep must .asleep => .haltSleep must (.awake awakened)
  | c => c

/-- `must_halt`. -/
def Waiter.must : Waiter → Bool
  | .suspend _ | .hold => true
  | .halt must => must

/-- Where `thread_dowait` returns to. -/
def Waiter.next : Waiter → Bool → Call
  | .suspend period, _ => .suspended period
  | .hold, _ => .stopped
  | .halt must, true => .haltClear must
  | .halt _, false => .haltFailed

structure Sys where
  thread : Thread
  calls : List Call
  period : Nat
  /-- The thread was made runnable by `thread_halt` and has not stopped since. -/
  forced : Bool

/-- `thread_wakeup_with_result` on `TH_EV_WAKE_ACTIVE`. -/
def Sys.wakeup (s : Sys) (awakened : Bool) : Sys :=
  { s with calls := s.calls.map (Call.wake awakened) }

def Sys.goto (s : Sys) (i : Nat) (c : Call) : Sys := { s with calls := s.calls.set i c }

def Sys.release (s : Sys) : Sys :=
  { s with thread := s.thread.release, forced := s.forced && s.thread.suspendCount ≠ 1 }

/-! ## The sections of the calls -/

/-- `thread_suspend`, once the thread is interruptible. -/
def threadSuspend (s : Sys) (i : Nat) (self : Bool) : Sys :=
  let t := { s.thread with userStopCount := int (s.thread.userStopCount + 1) }
  if s.thread.userStopCount = 0 then
    { s with thread := t.hold }.goto i (if self then .done else .dowait (.suspend s.period) (.awake true))
  else { s with thread := t }.goto i (if self then .done else .suspended s.period)

inductive KernReturn
  | success
  | failure
deriving DecidableEq

/-- `thread_resume`. -/
def threadResume (s : Sys) : KernReturn × Sys :=
  let t := s.thread
  if t.userStopCount > 0 then
    let s' := { s with thread := { t with userStopCount := int (t.userStopCount - 1) } }
    (.success, if int (t.userStopCount - 1) = 0 then { s'.release with period := s.period + 1 } else s')
  else (.failure, s)

/-- One turn of the loop of `thread_dowait`. -/
def threadDowait (s : Sys) (i : Nat) (w : Waiter) (awakened : Bool) : Sys :=
  let t := s.thread
  if ¬ awakened ∧ ¬ w.must then s.goto i (w.next false)
  else if t.susp ∧ t.run ∧ ¬ t.wait ∧ ¬ t.unint ∧ t.place = .runq then
    -- off the run queue, by `rem_runq`
    let s' := { s with
      thread := { t with run := false, place := .off, wakeActive := false }, forced := false }
    s'.goto i (if t.wakeActive then .notify w else w.next true)
  else if t.susp ∧ (t.run ∨ t.wait ∧ t.unint) then
    { s with thread := { t with wakeActive := true } }.goto i (.dowait w .asleep)
  -- already suspended; all other states leave the switch too
  else s.goto i (w.next true)

/-- The loop in `thread_halt` that waits for someone else's halt, or what follows it. -/
def haltLoop (s : Sys) (i : Nat) (must : Bool) : Sys :=
  let t := s.thread
  if t.astHalt ∧ ¬ t.halted then
    { s with thread := { t with wakeActive := true } }.goto i (.haltSleep must .asleep)
  else { s with thread := { t with astHalt := true } }.goto i (.dowait (.halt must) (.awake true))

/-- The first section of `thread_halt`; `cycle` if someone halts the caller. -/
def threadHalt (s : Sys) (i : Nat) (must cycle : Bool) : Sys :=
  let t := s.thread
  if t.halted then
    { s with thread := { t with suspendCount := int (t.suspendCount + 1) } }.goto i .haltReturned
  else if ¬ must ∧ cycle then s.goto i .done
  else haltLoop { s with thread := t.hold } i must

/-- `thread_halt` with the thread stopped, without its lock; `nice` if it can be taken as
halted where it is. -/
def haltCheck (s : Sys) (i : Nat) (must nice : Bool) : Sys :=
  s.goto i (if s.thread.halted then .haltReturned else if nice then .haltMark else .haltForce must)

def haltForce (s : Sys) (i : Nat) (must : Bool) : Option Sys :=
  let t := s.thread
  -- panic
  if t.run ∨ t.wait ∨ t.unint ∨ ¬ t.susp then none
  else
    some ({ s with thread := { t with run := true, unint := true }.setrun, forced := true }.goto i
      (.dowait (.halt must) (.awake true)))

/-- The next section of a call. The argument is what the call finds elsewhere, or what its
caller does next. -/
def callStep (s : Sys) (i : Nat) (choice : Bool) : Call → Option Sys
  | .suspend self => if s.thread.unint then none else some (threadSuspend s i self)
  | .held => some (if choice then s.goto i (.dowait .hold (.awake true)) else s.release.goto i .done)
  | .stopped | .haltRelease | .haltReturned => some (s.release.goto i .done)
  | .dowait w (.awake awakened) => some (threadDowait s i w awakened)
  | .notify w => some ((s.wakeup true).goto i (w.next true))
  | .halt must => some (threadHalt s i must choice)
  | .haltSleep must (.awake awakened) =>
    some (s.goto i (if s.thread.halted then .haltReturned
      else if ¬ awakened ∧ ¬ must then .haltRelease else .haltLock must))
  | .haltLock must => some (haltLoop s i must)
  | .haltClear must =>
    some ({ s with thread := s.thread.clearWait true }.goto i (.haltCheck must))
  | .haltCheck must => some (haltCheck s i must choice)
  | .haltMark =>
    some ({ s with thread := { s.thread with halted := true, astHalt := false } }.goto i .haltReturned)
  | .haltForce must => haltForce s i must
  | .haltFailed =>
    some (({ s with thread := { s.thread with astHalt := false } }.wakeup false).goto i .haltRelease)
  | .dowait _ .asleep | .haltSleep _ .asleep | .suspended _ | .done => none

/-! ## The steps of the target -/

/-- `thread_dispatch`, or the same in `thread_invoke`: what becomes of the thread when it
gives up its processor. -/
def threadDispatch (s : Sys) : Option Sys :=
  let t := s.thread
  if t.susp ∧ ¬ t.unint ∧ ¬ (t.wait ∧ t.halted) then
    let s' := { s with
      thread := { t with run := false, place := .off, wakeActive := false }, forced := false }
    some (if t.wakeActive then s'.wakeup true else s')
  -- panic
  else if t.halted then none
  else if t.wait then some { s with thread := { t with run := false, place := .off } }
  else some { s with thread := t.setrun }

inductive Own
  /-- `assert_wait`. -/
  | assertWait (interruptible : Bool)
  | dispatch
  | choose
  | swapin
  /-- `thread_invoke`. -/
  | invoke
  | wakeup (interruptOnly : Bool)
  /-- It sees `AST_HALT` on its way out of the kernel. -/
  | notice
  /-- `thread_halt_self`. -/
  | haltSelf

def ownStep (s : Sys) : Own → Option Sys
  | .assertWait interruptible =>
    if s.thread.place = .cpu ∧ ¬ s.thread.wait then
      some { s with thread := { s.thread with
        wait := true, unint := s.thread.unint || !interruptible } }
    else none
  | .dispatch => if s.thread.place = .cpu then threadDispatch s else none
  | .choose =>
    if s.thread.place = .runq then some { s with thread := { s.thread with place := .going } }
    else none
  | .swapin => if s.thread.place = .going then some { s with thread := s.thread.setrun } else none
  | .invoke =>
    if s.thread.place = .going then
      some { s with thread := { s.thread with place := .cpu, unint := false } }
    else none
  | .wakeup interruptOnly => some { s with thread := s.thread.clearWait interruptOnly }
  | .notice =>
    if s.thread.place = .cpu ∧ s.thread.astHalt then
      some { s with thread := { s.thread with halting := true } }
    else none
  | .haltSelf =>
    if s.thread.place = .cpu ∧ s.thread.halting then
      some { s with thread := { s.thread with halted := true, astHalt := false, halting := false } }
    else none

/-! ## The system -/

inductive Act
  | own (a : Own)
  /-- Someone calls `thread_suspend` or `thread_halt`. -/
  | start (c : Call)
  | hold
  | resume
  | call (i : Nat) (choice : Bool)
  | interrupt (i : Nat)

def Call.isStart : Call → Bool
  | .suspend _ | .halt _ => true
  | _ => false

def step (s : Sys) : Act → Option Sys
  | .own a => ownStep s a
  | .start c => if c.isStart then some { s with calls := s.calls ++ [c] } else none
  | .hold => some { s with thread := s.thread.hold, calls := s.calls ++ [.held] }
  | .resume => some (threadResume s).2
  | .call i choice => (s.calls[i]?).bind (callStep s i choice)
  | .interrupt i => (s.calls[i]?).map fun c => s.goto i (c.wake false)

def Thread.fresh (t : Thread) : Prop :=
  t.run = true ∧ t.susp = false ∧ t.halted = false ∧ t.place ≠ .off ∧ t.userStopCount = 0 ∧
    t.suspendCount = 0

def lts : Lts Sys Act where
  init s := s.thread.fresh ∧ s.calls = [] ∧ s.forced = false
  step := step

end Mach.Kern.Suspend
