import Mach.Kern.Kmutex

/-!
# Waits and wake-ups of `gsync`

The calls of `gsync_wait` and `gsync_wake` of `kern/gsync.c` on one address, by any number of
threads. A thread that finds the word as expected enters the queue under the lock of the bucket
and blocks; its wait is ended by `clear_wait`, which `gsync_wake` calls for the waiters that it
takes out of the queue, and which a timeout and an interruption call at any moment.

The lock is a `kmutex`: a thread that does not get it sleeps, in a wait that is not
interruptible, and is woken as the next owner. `clear_wait` knows nothing of the kind of wait
that it ends. The step that gives up the lock is one step here.

What has been taken out, and which calls have returned `KERN_SUCCESS`, is kept beside the data
of the kernel.
-/

namespace Mach.Kern.GsyncWake

open Mach.Lib Function

inductive Wait
  | none
  /-- The wait of `gsync_wait`, from `thread_will_wait` on. -/
  | gsync
  /-- The sleep of `kmutex_lock`. -/
  | mutex
deriving DecidableEq

/-- `wait_result`. -/
inductive WaitResult
  | awakened
  | timedOut
  | interrupted
deriving DecidableEq

/-- Where a thread is in a call. `V` are the values of the word. -/
inductive Pc (T V : Type)
  | out
  /-- `gsync_wait`, for the value `e`, with a timeout or without. -/
  | waitEnter (e : V) (timed : Bool)
  | waitLocked (e : V) (timed : Bool)
  | waitChecked (e : V) (timed : Bool)
  | waitQueued (timed : Bool)
  | waitBlocked (timed : Bool)
  | refused
  | leaveEnter
  | leaveLocked
  | left
  /-- `gsync_wake`, with a value for the word or without. -/
  | wakeEnter (broadcast : Bool) (mutate : Option V)
  | wakeLocked (broadcast : Bool) (mutate : Option V)
  | wakeFind (broadcast : Bool)
  | wakeTake (broadcast : Bool)
  | wakeClear (broadcast : Bool) (waiter : T)
  | wakeDone (broadcast : Bool) (success : Bool)
deriving DecidableEq

structure State (T V : Type) where
  pc : T → Pc T V
  wait : T → Wait
  result : T → WaitResult
  word : V
  lock : Kmutex.Word
  sleepers : List T
  queue : List T
  /-- What a thread has last read from the word under the lock, and whether a call of
  `gsync_wake` has looked for waiters since. -/
  seen : T → V
  passed : T → Bool
  /-- The waiters that a thread's call of `gsync_wake` has dequeued. -/
  spent : T → List T
  /-- The waiters that have been dequeued by calls of `gsync_wake`. -/
  dequeued : List T
  /-- The threads whose calls of `gsync_wait` have returned `KERN_SUCCESS`. -/
  succeeded : List T

variable {T V : Type}

section

variable [DecidableEq T] [DecidableEq V]

def State.goto (s : State T V) (t : T) (pc : Pc T V) : State T V :=
  { s with pc := update s.pc t pc }

/-- `kmutex_lock`, not interruptible. The thread goes on at `pc`, when it has been woken if it
has to sleep. With `slow` it has found the mutex released in between. -/
def State.acquire (s : State T V) (t : T) (slow : Bool) (pc : Pc T V) : State T V :=
  if s.lock = .avail then { s with lock := if slow then .contended else .locked }.goto t pc
  else
    { s with
      lock := .contended
      sleepers := s.sleepers ++ [t]
      wait := update s.wait t .mutex }.goto t pc

/-- `kmutex_unlock`. -/
def State.release (s : State T V) (t : T) (pc : Pc T V) : State T V :=
  if s.lock = .locked then { s with lock := .avail }.goto t pc
  else
    match s.sleepers with
    | [] => { s with lock := .avail }.goto t pc
    | u :: us =>
      { s with
        sleepers := us
        wait := update s.wait u .none
        result := update s.result u .awakened }.goto t pc

/-- `clear_wait`, for a wait of any kind. -/
def State.clearWait (s : State T V) (t : T) (r : WaitResult) : State T V :=
  if s.wait t = .none then s
  else
    { s with
      sleepers := s.sleepers.erase t
      wait := update s.wait t .none
      result := update s.result t r }

/-- The next step of a call. A `fault` keeps it from the word. -/
def go (s : State T V) (t : T) (slow fault : Bool) : Option (State T V) :=
  if s.wait t = .mutex then none
  else
    match s.pc t with
    | .out => none
    | .waitEnter e timed => some (s.acquire t slow (.waitLocked e timed))
    | .waitLocked e timed =>
      if fault = true ∨ s.word ≠ e then some (s.goto t .refused)
      else
        some ({ s with
          seen := update s.seen t s.word
          passed := update s.passed t false }.goto t (.waitChecked e timed))
    | .waitChecked _ timed =>
      some ({ s with
        queue := s.queue ++ [t]
        wait := update s.wait t .gsync }.goto t (.waitQueued timed))
    | .waitQueued timed => some (s.release t (.waitBlocked timed))
    | .waitBlocked _ =>
      if s.wait t = .gsync then none
      else if s.result t = .awakened then
        some ({ s with succeeded := t :: s.succeeded }.goto t .out)
      else some (s.goto t .leaveEnter)
    | .refused => some (s.release t .out)
    | .leaveEnter => some (s.acquire t slow .leaveLocked)
    | .leaveLocked => some ({ s with queue := s.queue.erase t }.goto t .left)
    | .left => some (s.release t .out)
    | .wakeEnter b m => some (s.acquire t slow (.wakeLocked b m))
    | .wakeLocked b m =>
      if fault then some (s.goto t (.wakeDone b false))
      else some ({ s with word := m.getD s.word }.goto t (.wakeFind b))
    | .wakeFind b =>
      some ({ s with passed := fun _ => true }.goto t
        (if s.queue = [] then .wakeDone b false else .wakeTake b))
    | .wakeTake b =>
      match s.queue with
      | [] => none
      | u :: us => some ({ s with queue := us }.goto t (.wakeClear b u))
    | .wakeClear b u =>
      some ({ s.clearWait u .awakened with
        dequeued := u :: s.dequeued
        spent := update s.spent t (u :: s.spent t) }.goto t
          (if b = true ∧ s.queue ≠ [] then .wakeTake b else .wakeDone b true))
    | .wakeDone _ _ => some (s.release t .out)

/-! ## Runs -/

inductive Action (T V : Type)
  | callWait (t : T) (e : V) (timed : Bool)
  | callWake (t : T) (broadcast : Bool) (mutate : Option V)
  | go (t : T) (slow fault : Bool)
  | store (v : V)
  | timeout (t : T)
  | interrupt (t : T)

def Pc.timed : Pc T V → Bool
  | .waitQueued timed => timed
  | .waitBlocked timed => timed
  | _ => false

def step (s : State T V) : Action T V → Option (State T V)
  | .callWait t e timed =>
    if s.pc t = .out then some (s.goto t (.waitEnter e timed)) else none
  | .callWake t b m =>
    if s.pc t = .out then
      some ({ s with spent := update s.spent t [] }.goto t (.wakeEnter b m))
    else none
  | .go t slow fault => go s t slow fault
  | .store v => some { s with word := v }
  | .timeout t =>
    if s.wait t = .gsync ∧ (s.pc t).timed = true then some (s.clearWait t .timedOut) else none
  | .interrupt t => if s.wait t = .gsync then some (s.clearWait t .interrupted) else none

structure Fresh (s : State T V) : Prop where
  pc : ∀ t, s.pc t = .out
  wait : ∀ t, s.wait t = .none
  lock : s.lock = .avail
  sleepers : s.sleepers = []
  queue : s.queue = []
  dequeued : s.dequeued = []
  succeeded : s.succeeded = []

def system : Lts (State T V) (Action T V) where
  init := Fresh
  step := step

end

/-! ## What the wake-ups are for -/

/-- The thread is in the wait of `gsync_wait`, or about to return from it. -/
def Pc.waits : Pc T V → Bool
  | .waitQueued _ => true
  | .waitBlocked _ => true
  | _ => false

/-- The wait of the thread has been ended by a wake-up: its call returns `KERN_SUCCESS` with
its next step. -/
def State.Woken (s : State T V) (t : T) : Prop :=
  (s.pc t).waits = true ∧ s.wait t = .none ∧ s.result t = .awakened

def State.Cleared (s : State T V) (t : T) : Prop := ∃ u b, s.pc u = .wakeClear b t

structure Matched (s : State T V) : Prop where
  /-- Who is about to enter the queue has found the word as expected, and no wake-up has
  looked for waiters since. -/
  checked : ∀ t e timed, s.pc t = .waitChecked e timed → s.seen t = e ∧ s.passed t = false
  waiting : ∀ t, s.wait t = .gsync → t ∈ s.queue ∨ s.Cleared t
  /-- Each waiter that has been dequeued returns `KERN_SUCCESS`, or has done so, and nobody
  else. -/
  books : ∃ ws : List T, ws.Nodup ∧ (∀ t, t ∈ ws ↔ s.Woken t) ∧
    s.dequeued.Perm (s.succeeded ++ ws)
  /-- A call of `gsync_wake` that succeeds has dequeued a waiter, and without
  `GSYNC_BROADCAST` just one. -/
  spent : ∀ t b, s.pc t = .wakeDone b true →
    s.spent t ≠ [] ∧ (b = false → (s.spent t).length = 1)
  failed : ∀ t b, s.pc t = .wakeDone b false → s.spent t = []

/-- A waiter that is taken out of the queue still waits when `clear_wait` is called for it: no
timeout and no interruption has ended its wait. -/
def StillWaits (s : State T V) : Action T V → Prop
  | .go t _ _ => ∀ b u, s.pc t = .wakeClear b u → s.wait u = .gsync
  | _ => True

end Mach.Kern.GsyncWake
