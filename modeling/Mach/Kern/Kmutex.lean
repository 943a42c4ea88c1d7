import Mach.Lib.Transition

/-!
# Kernel mutexes

`kern/kmutex.c`. The state word of a mutex says whether it is available, locked, or locked
with threads that may wait for it. The word is changed outside the inner lock by a thread
that finds the mutex available, or that gives it up with nobody waiting; everything else is
done under the inner lock.

A thread sleeps by entering the queue of the event while it holds the inner lock. Who is
woken finds the mutex locked for it already: the word is not touched. A sleep that can be
interrupted may end at any moment, and then only the queue is different.

Who owns the mutex is nowhere written down. `owns` keeps it beside the data of the kernel:
from the moment a call of `kmutex_lock` or `kmutex_trylock` is certain to succeed, up to the
step of `kmutex_unlock` that makes the mutex available or wakes the next owner.
-/

namespace Mach.Kern.Kmutex

open Mach.Lib Function

inductive Word
  | avail
  | locked
  | contended
deriving DecidableEq

/-- `wait_result`, as far as it is told apart. -/
inductive WaitResult
  | awakened
  | interrupted
deriving DecidableEq

/-- What a thread does next. `i` tells whether the sleep can be interrupted. -/
inductive Pc
  | out
  /-- `kmutex_lock` waits for the inner lock. -/
  | lockEnter (i : Bool)
  | lockSwap (i : Bool)
  | lockLeave
  /-- `thread_sleep` has yet to assert the wait. -/
  | lockSleep (i : Bool)
  | asserted (i : Bool)
  | blocked (i : Bool)
  /-- `kmutex_unlock` waits for the inner lock. -/
  | unlockEnter
  | unlockWake
  | unlockReset
  | unlockLeave
deriving DecidableEq

variable {T : Type}

structure State (T : Type) where
  word : Word
  inner : Option T
  queue : List T
  pc : T → Pc
  waitResult : T → WaitResult
  owns : T → Bool
  /-- Whether a thread owned the mutex already when it last called `kmutex_lock`. -/
  relock : T → Bool

inductive Action (T : Type)
  | lock (t : T) (interruptible : Bool)
  | trylock (t : T)
  | unlock (t : T)
  | go (t : T)
  | interrupt (t : T)

section

variable [DecidableEq T]

def State.goto (s : State T) (t : T) (pc : Pc) : State T :=
  { s with pc := update s.pc t pc }

def State.own (s : State T) (t : T) (b : Bool) : State T :=
  { s with owns := update s.owns t b }

/-- `atomic_cas_acq` from available to locked. -/
def casAcquire (s : State T) (t : T) (fail : Pc) : State T :=
  if s.word = .avail then { s with word := .locked }.own t true else s.goto t fail

def kmutexLock (s : State T) (t : T) (interruptible : Bool) : State T :=
  casAcquire { s with relock := update s.relock t (s.owns t) } t
    (.lockEnter interruptible)

def kmutexTrylock (s : State T) (t : T) : State T := casAcquire s t .out

/-- `kmutex_unlock`, up to its slow path. -/
def kmutexUnlock (s : State T) (t : T) : State T :=
  if s.word = .locked then { s with word := .avail }.own t false else s.goto t .unlockEnter

/-- `thread_wakeup_one`: the first thread of the queue is the next owner. -/
def wakeupOne (s : State T) (t : T) : State T :=
  match s.queue with
  | [] => s.goto t .unlockReset
  | u :: queue =>
    (({ s with queue := queue
               waitResult := update s.waitResult u .awakened }.own t false).own u
      true).goto t .unlockLeave

def go (s : State T) (t : T) : Option (State T) :=
  match s.pc t with
  | .out => none
  | .lockEnter i =>
    if s.inner.isNone then some ({ s with inner := some t }.goto t (.lockSwap i)) else none
  | .lockSwap i =>
    if s.word = .avail then
      some (({ s with word := .contended }.own t true).goto t .lockLeave)
    else some ({ s with word := .contended }.goto t (.lockSleep i))
  | .lockLeave => some ({ s with inner := none }.goto t .out)
  | .lockSleep i => some ({ s with queue := s.queue ++ [t] }.goto t (.asserted i))
  | .asserted i => some ({ s with inner := none }.goto t (.blocked i))
  | .blocked _ => if t ∈ s.queue then none else some (s.goto t .out)
  | .unlockEnter =>
    if s.inner.isNone then some ({ s with inner := some t }.goto t .unlockWake) else none
  | .unlockWake => some (wakeupOne s t)
  | .unlockReset => some (({ s with word := .avail }.own t false).goto t .unlockLeave)
  | .unlockLeave => some ({ s with inner := none }.goto t .out)

def Pc.interruptible : Pc → Bool
  | .asserted i => i
  | .blocked i => i
  | _ => false

/-- `clear_wait` with another result than that of a wake-up. -/
def interrupt (s : State T) (t : T) : Option (State T) :=
  if t ∈ s.queue ∧ (s.pc t).interruptible = true then
    some { s with queue := s.queue.erase t
                  waitResult := update s.waitResult t .interrupted }
  else none

def step (s : State T) : Action T → Option (State T)
  | .lock t i => if s.pc t = .out then some (kmutexLock s t i) else none
  | .trylock t => if s.pc t = .out then some (kmutexTrylock s t) else none
  | .unlock t => if s.pc t = .out ∧ s.owns t = true then some (kmutexUnlock s t) else none
  | .go t => go s t
  | .interrupt t => interrupt s t

/-- `kmutex_init`, before any thread has called. -/
structure Fresh (s : State T) : Prop where
  word : s.word = .avail
  inner : s.inner = none
  queue : s.queue = []
  pc : ∀ t, s.pc t = .out
  owns : ∀ t, s.owns t = false

def system : Lts (State T) (Action T) where
  init := Fresh
  step := step

end

/-! ## What a mutex is for -/

/-- The thread is in `thread_sleep`. -/
def Pc.asleep : Pc → Bool
  | .asserted _ => true
  | .blocked _ => true
  | _ => false

def State.Handed (s : State T) (t : T) : Prop :=
  (s.pc t).asleep = true ∧ t ∉ s.queue ∧ s.waitResult t = .awakened

def State.Interrupted (s : State T) (t : T) : Prop :=
  (s.pc t).asleep = true ∧ t ∉ s.queue ∧ s.waitResult t = .interrupted

structure Mutex (s : State T) : Prop where
  exclusive : ∀ t u, s.owns t = true → s.owns u = true → t = u
  handed : ∀ t, s.Handed t → s.owns t = true
  interrupted : ∀ t, s.Interrupted t → s.relock t = false → s.owns t = false
  waited : ∀ t ∈ s.queue, (∃ o, s.owns o = true) ∧ s.word = .contended ∨ ∃ u, s.Handed u

end Mach.Kern.Kmutex
