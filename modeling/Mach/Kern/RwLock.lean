import Mach.Lib.Transition

/-!
# Readers/writer locks

The sleep locks of `kern/lock.c`, with `can_sleep` set. A lock holds two flags, one for a
writer and one for a reader that is being upgraded, a count of readers and a depth of
recursion. Which thread holds what is not written down: `lock_done` tells from the counters
what is being released.

Each section between taking and releasing the interlock is one step. A thread that cannot go
on sleeps on the lock, or releases the interlock, spins for a while and looks again (`spin`).

Beside the lock, the model keeps what each thread holds: the read holds as a list of
threads, and for each thread whether it has a write hold or an upgraded hold, and how deep it
has taken the lock again. A thread releases only what it holds, in the order in which
`lock_done` releases, and one that the lock takes for a recursive holder is a writer.
-/

namespace Mach.Kern.RwLock

open Mach.Lib

inductive Loop
  /-- `lock_write`, for the writer flag. -/
  | writeWant
  /-- `lock_write`, for readers and upgrades to finish. -/
  | writeWait
  | readWait
  /-- `lock_read_to_write` and `lock_try_read_to_write`, for the other readers to finish. -/
  | upgradeWait
deriving DecidableEq

inductive Pc
  | out
  | wait (loop : Loop) (asleep : Bool)
deriving DecidableEq

structure Thread where
  pc : Pc
  /-- A hold for writing that `lock_write` or `lock_try_write` has given. -/
  write : Bool
  upgrade : Bool
  depth : Nat
deriving DecidableEq

structure State (T : Type) where
  thread : Option T
  readCount : Nat
  wantUpgrade : Bool
  wantWrite : Bool
  waiting : Bool
  recursionDepth : Nat
  threads : T → Thread
  readers : List T

/-- `read_count` has 16 bits. -/
def readLimit : Nat := 65536

/-- `recursion_depth` has 12 bits. -/
def depthLimit : Nat := 4096

def Pc.wake : Pc → Pc
  | .out => .out
  | .wait l _ => .wait l false

def Thread.wake (x : Thread) : Thread := { x with pc := x.pc.wake }

def Thread.writer (x : Thread) : Bool := x.write || x.upgrade

variable {T : Type}

def State.wakeup (s : State T) : State T :=
  if s.waiting then { s with waiting := false, threads := fun u => (s.threads u).wake } else s

section

variable [DecidableEq T]

def State.put (s : State T) (t : T) (x : Thread) : State T :=
  { s with threads := Function.update s.threads t x }

def State.goto (s : State T) (t : T) (pc : Pc) : State T :=
  s.put t { s.threads t with pc := pc }

def State.pause (s : State T) (t : T) (spin : Bool) (l : Loop) : State T :=
  if spin then s.goto t (.wait l false) else { s with waiting := true }.goto t (.wait l true)

/-! ## The loops -/

/-- The second loop of `lock_write`: wait for readers and upgrades to finish. -/
def testWriteWait (s : State T) (t : T) (spin : Bool) : State T :=
  if s.readCount ≠ 0 ∨ s.wantUpgrade = true then s.pause t spin .writeWait
  else s.put t { s.threads t with pc := .out, write := true }

/-- The first loop of `lock_write`: acquire the writer flag. -/
def testWriteWant (s : State T) (t : T) (spin : Bool) : State T :=
  if s.wantWrite = true then s.pause t spin .writeWant
  else testWriteWait { s with wantWrite := true } t spin

def State.addRead (s : State T) (t : T) : State T :=
  { s with readCount := (s.readCount + 1) % readLimit, readers := t :: s.readers }

def State.dropRead (s : State T) (t : T) : State T :=
  { s with readCount := if s.readCount = 0 then readLimit - 1 else s.readCount - 1
           readers := s.readers.erase t }

def testRead (s : State T) (t : T) (spin : Bool) : State T :=
  if s.wantWrite = true ∨ s.wantUpgrade = true then s.pause t spin .readWait
  else (s.addRead t).goto t .out

def testUpgrade (s : State T) (t : T) (spin : Bool) : State T :=
  if s.readCount ≠ 0 then s.pause t spin .upgradeWait
  else s.put t { s.threads t with pc := .out, upgrade := true }

/-! ## The calls -/

def State.recurse (s : State T) (t : T) : State T :=
  { s with recursionDepth := (s.recursionDepth + 1) % depthLimit }.put t
    { s.threads t with depth := (s.threads t).depth + 1 }

def lockWrite (s : State T) (t : T) (spin : Bool) : State T :=
  if s.thread = some t then s.recurse t else testWriteWant s t spin

def lockRead (s : State T) (t : T) (spin : Bool) : State T :=
  if s.thread = some t then s.addRead t else testRead s t spin

def Thread.release (x : Thread) : Thread :=
  if x.depth ≠ 0 then { x with depth := x.depth - 1 }
  else if x.upgrade then { x with upgrade := false }
  else { x with write := false }

def State.clearWrite (s : State T) : State T :=
  if s.recursionDepth ≠ 0 then { s with recursionDepth := s.recursionDepth - 1 }
  else if s.wantUpgrade then { s with wantUpgrade := false }
  else { s with wantWrite := false }

def State.released (s : State T) (t : T) : State T :=
  if t ∈ s.readers then { s with readers := s.readers.erase t }
  else s.put t (s.threads t).release

def lockDone (s : State T) (t : T) : State T :=
  let s' :=
    if s.readCount ≠ 0 then { s.released t with readCount := s.readCount - 1 }
    else (s.clearWrite).released t
  if s'.readCount = 0 then s'.wakeup else s'

/-- `lock_read_to_write` returns whether the upgrade has failed. -/
def lockReadToWrite (s : State T) (t : T) (spin : Bool) : Bool × State T :=
  let s := s.dropRead t
  if s.thread = some t then (false, s.recurse t)
  else if s.wantUpgrade = true then (true, if s.readCount = 0 then s.wakeup else s)
  else (false, testUpgrade { s with wantUpgrade := true } t spin)

def lockWriteToRead (s : State T) (t : T) : State T :=
  (((s.addRead t).clearWrite).put t (s.threads t).release).wakeup

def lockTryWrite (s : State T) (t : T) : Bool × State T :=
  if s.thread = some t then (true, s.recurse t)
  else if s.wantWrite = true ∨ s.wantUpgrade = true ∨ s.readCount ≠ 0 then (false, s)
  else (true, { s with wantWrite := true }.put t { s.threads t with write := true })

def lockTryRead (s : State T) (t : T) : Bool × State T :=
  if s.thread = some t then (true, s.addRead t)
  else if s.wantWrite = true ∨ s.wantUpgrade = true then (false, s)
  else (true, s.addRead t)

def lockTryReadToWrite (s : State T) (t : T) : Bool × State T :=
  if s.thread = some t then (true, (s.dropRead t).recurse t)
  else if s.wantUpgrade = true then (false, s)
  else (true, testUpgrade ({ s with wantUpgrade := true }.dropRead t) t false)

/-- `lock_clear_recursive`, called by the thread that is recorded. -/
def lockClearRecursive (s : State T) : State T :=
  if s.recursionDepth = 0 then { s with thread := none } else s

def lookAgain (s : State T) (t : T) (spin : Bool) : Option (State T) :=
  match (s.threads t).pc with
  | .wait .writeWant false => some (testWriteWant s t spin)
  | .wait .writeWait false => some (testWriteWait s t spin)
  | .wait .readWait false => some (testRead s t spin)
  | .wait .upgradeWait false => some (testUpgrade s t spin)
  | _ => none

/-! ## Runs -/

inductive Call
  | write (spin : Bool)
  | read (spin : Bool)
  | done
  | readToWrite (spin : Bool)
  | writeToRead
  | tryWrite
  | tryRead
  | tryReadToWrite
  | setRecursive
  | clearRecursive
deriving DecidableEq

def State.call (s : State T) (t : T) : Call → State T
  | .write spin => lockWrite s t spin
  | .read spin => lockRead s t spin
  | .done => lockDone s t
  | .readToWrite spin => (lockReadToWrite s t spin).2
  | .writeToRead => lockWriteToRead s t
  | .tryWrite => (lockTryWrite s t).2
  | .tryRead => (lockTryRead s t).2
  | .tryReadToWrite => (lockTryReadToWrite s t).2
  | .setRecursive => { s with thread := some t }
  | .clearRecursive => lockClearRecursive s

def State.Holds (s : State T) (t : T) : Prop := t ∈ s.readers ∨ (s.threads t).writer = true

instance (s : State T) (t : T) : Decidable (s.Holds t) := inferInstanceAs (Decidable (_ ∨ _))

def State.entitled (s : State T) (t : T) : Call → Bool
  | .done => decide (s.Holds t)
  | .readToWrite _ => decide (t ∈ s.readers)
  | .tryReadToWrite => decide (t ∈ s.readers)
  | .writeToRead => (s.threads t).writer
  | .setRecursive => (s.threads t).writer && s.wantWrite
  | .clearRecursive => decide (s.thread = some t)
  | _ => true

def Call.recursive : Call → Bool
  | .write _ => true
  | .read _ => true
  | .readToWrite _ => true
  | .tryWrite => true
  | .tryRead => true
  | .tryReadToWrite => true
  | _ => false

inductive Action (T : Type)
  | call (t : T) (c : Call)
  | again (t : T) (spin : Bool)

def step (s : State T) : Action T → Option (State T)
  | .call t c =>
    if (s.threads t).pc = .out ∧ s.entitled t c = true ∧
        (s.thread = some t → c.recursive = true → (s.threads t).writer = true) then
      some (s.call t c)
    else none
  | .again t spin => lookAgain s t spin

/-- `lock_init`. -/
structure Fresh (s : State T) : Prop where
  thread : s.thread = none
  readCount : s.readCount = 0
  wantUpgrade : s.wantUpgrade = false
  wantWrite : s.wantWrite = false
  waiting : s.waiting = false
  recursionDepth : s.recursionDepth = 0
  threads : ∀ t, s.threads t = ⟨.out, false, false, 0⟩
  readers : s.readers = []

def system : Lts (State T) (Action T) where
  init := Fresh
  step := step

end

/-! ## What a lock is for -/

def Pc.asleep : Pc → Bool
  | .out => false
  | .wait _ b => b

def Pc.upgrading : Pc → Bool
  | .wait .upgradeWait _ => true
  | _ => false

def Thread.upgrades (x : Thread) : Bool := x.pc.upgrading || x.upgrade

structure Excludes (s : State T) : Prop where
  writer : ∀ t u, (s.threads t).writer = true → s.Holds u → u = t
  readCount : s.readCount = s.readers.length
  /-- Of the readers that ask for an upgrade at the same time, at most one is upgraded. -/
  upgrade : ∀ t u, (s.threads t).upgrades = true → (s.threads u).upgrades = true → t = u
  /-- Nobody sleeps on a lock that nobody holds or upgrades, unless a writer is awake and finds
  the lock free when it looks again. -/
  wakes : ∀ t, (s.threads t).pc.asleep = true → (∃ u, s.Holds u) ∨
    (∃ u, (s.threads u).pc.upgrading = true) ∨
    ∃ u, (s.threads u).pc = .wait .writeWait false ∧ s.readCount = 0 ∧ s.wantUpgrade = false

/-- While a thread is being upgraded, or has been, the upgrade of every other reader fails, and
one that fails in `lock_read_to_write` holds nothing. -/
def FailsUpgrade [DecidableEq T] (s : State T) (t : T) (spin : Bool) : Prop :=
  (∃ u, u ≠ t ∧ (s.threads u).upgrades = true) →
    (lockTryReadToWrite s t).1 = false ∧ (lockReadToWrite s t spin).1 = true ∧
      ¬ (lockReadToWrite s t spin).2.Holds t

/-! ## Steps that the counters are wide enough for -/

def givesRead [DecidableEq T] (s : State T) : Action T → Bool
  | .call t (.read _) => s.thread = some t || !(s.wantWrite || s.wantUpgrade)
  | .call t .tryRead => s.thread = some t || !(s.wantWrite || s.wantUpgrade)
  | .call _ .writeToRead => true
  | .again t _ =>
    (s.threads t).pc = .wait .readWait false && !(s.wantWrite || s.wantUpgrade)
  | _ => false

def recurses [DecidableEq T] (s : State T) : Action T → Bool
  | .call t (.write _) => s.thread = some t
  | .call t .tryWrite => s.thread = some t
  | .call t (.readToWrite _) => s.thread = some t
  | .call t .tryReadToWrite => s.thread = some t
  | _ => false

/-- The step is a `lock_read_to_write` that fails, and leaves its caller another read hold. -/
def leavesRead [DecidableEq T] (s : State T) : Action T → Bool
  | .call t (.readToWrite _) =>
    s.wantUpgrade && s.thread ≠ some t && 1 < s.readers.count t
  | _ => false

/-- There is room in the counters: a read hold is given while there are fewer than `2 ^ 16 - 1`,
the lock is taken again for writing while it has been fewer than `2 ^ 12 - 1` times. And a reader
whose upgrade fails in `lock_read_to_write` has no other read hold. -/
structure Wide [DecidableEq T] (s : State T) (a : Action T) : Prop where
  read : givesRead s a = true → s.readers.length + 1 < readLimit
  depth : recurses s a = true → s.recursionDepth + 1 < depthLimit
  single : leavesRead s a = false

instance [DecidableEq T] (s : State T) (a : Action T) : Decidable (Wide s a) :=
  decidable_of_iff ((givesRead s a = true → s.readers.length + 1 < readLimit) ∧
    (recurses s a = true → s.recursionDepth + 1 < depthLimit) ∧ leavesRead s a = false)
    ⟨fun h => ⟨h.1, h.2.1, h.2.2⟩, fun h => ⟨h.read, h.depth, h.single⟩⟩

end Mach.Kern.RwLock
