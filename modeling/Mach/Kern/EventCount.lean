import Mathlib.Algebra.GroupWithZero.Nat
import Mathlib.Algebra.Group.Int.Defs
import Mach.Lib.Transition

/-!
# Event counters

`kern/eventcount.c`: an interrupt handler signals, and one thread at a time waits. A count
above zero is the number of signals that nobody has waited for; it is -1 while a thread
waits. Each operation holds the lock of the counter, so it is one step. What the signal
does to wake the thread up is left out.

The count is an `int`. With `INT_MAX` signals pending, the next one turns it negative.
-/

namespace Mach.Kern.EventCount

open Mach.Lib

/-- The value of an `int` after a computation. -/
def toInt (x : Int) : Int := x.bmod (2 ^ 32)

/-- `struct evc`, and a record of what has happened to it. -/
structure Evc (T : Type) where
  count : Int
  waitingThread : Option T
  asleep : List T
  signals : Nat
  aborts : Nat
  completed : Nat
  /-- whether `evc_wait_clear` has set the count -/
  cleared : Bool

inductive Wait
  | success
  | blocks
  | noSpace
deriving DecidableEq

variable {T : Type}

def evcInit : Evc T := ⟨0, none, [], 0, 0, 0, false⟩

def Evc.resume (s : Evc T) : Evc T :=
  match s.waitingThread with
  | none => s
  | some _ => { s with waitingThread := none, asleep := s.asleep.tail, completed := s.completed + 1 }

def Evc.block (s : Evc T) (t : T) (count : Int) : Evc T :=
  { s with count := count, waitingThread := some t, asleep := t :: s.asleep }

def evcSignal (s : Evc T) : Evc T :=
  { s with count := toInt (s.count + 1), signals := s.signals + 1 }.resume

def evcWait (s : Evc T) (t : T) : Wait × Evc T :=
  if s.count > 0 then (.success, { s with count := toInt (s.count - 1), completed := s.completed + 1 })
  else if s.waitingThread.isNone then (.blocks, s.block t (toInt (s.count - 1)))
  else (.noSpace, s)

def evcWaitClear (s : Evc T) (t : T) : Wait × Evc T :=
  if s.waitingThread.isNone then (.blocks, { s.block t (-1) with cleared := true }) else (.noSpace, s)

def evcNotifyAbort [DecidableEq T] (s : Evc T) (t : T) : Evc T :=
  if s.waitingThread = some t then
    { s with count := toInt (s.count + 1), aborts := s.aborts + 1 }.resume
  else s

inductive Action (T : Type)
  | signal
  | wait (t : T)
  | waitClear (t : T)
  | notifyAbort (t : T)

variable [DecidableEq T] {s s' : Evc T}

def step (s : Evc T) : Action T → Option (Evc T)
  | .signal => some (evcSignal s)
  | .wait t => if t ∈ s.asleep then none else some (evcWait s t).2
  | .waitClear t => if t ∈ s.asleep then none else some (evcWaitClear s t).2
  | .notifyAbort t => some (evcNotifyAbort s t)

def system : Lts (Evc T) (Action T) where
  init := fun s => s = evcInit
  step := step

structure Counts (s : Evc T) : Prop where
  waits : s.count = -1 ↔ s.waitingThread.isSome
  bound : -1 ≤ s.count
  one : s.asleep = s.waitingThread.toList
  full : s.waitingThread.isSome → ∀ t,
    evcWait s t = (.noSpace, s) ∧ evcWaitClear s t = (.noSpace, s)
  balance : s.cleared = false → s.waitingThread = none →
    (s.signals + s.aborts : Int) = s.completed + s.count

def Room (s : Evc T) : Action T → Prop
  | .signal => s.count < 2 ^ 31 - 1
  | _ => True

inductive Inv : Evc T → Prop
  | idle {count : Int} {signals aborts completed : Nat} {cleared : Bool} (hcount : 0 ≤ count)
      (hmax : count < 2 ^ 31)
      (hbalance : cleared = false → (signals + aborts : Int) = completed + count) :
      Inv ⟨count, none, [], signals, aborts, completed, cleared⟩
  | waiting (t : T) {signals aborts completed : Nat} {cleared : Bool}
      (hbalance : cleared = false → signals + aborts = completed) :
      Inv ⟨-1, some t, [t], signals, aborts, completed, cleared⟩

theorem toInt_eq {x : Int} (h : -1 ≤ x) (h' : x < 2 ^ 31) : toInt x = x := by
  unfold toInt
  rw [Int.bmod_def]
  omega

theorem Inv.step {a : Action T} (h : Inv s) (hroom : Room s a) (hs : step s a = some s') :
    Inv s' := by
  cases h with
  | @idle count signals aborts completed cleared hcount hmax hbalance =>
    cases a with
    | signal =>
      have hlt : count < 2 ^ 31 - 1 := hroom
      cases hs
      show Inv ⟨toInt (count + 1), none, [], signals + 1, aborts, completed, cleared⟩
      rw [toInt_eq (by omega) (by omega)]
      exact .idle (by omega) (by omega) fun hc => by have := hbalance hc; omega
    | wait t =>
      cases hs
      unfold evcWait
      dsimp only
      split
      next hpos =>
        rw [toInt_eq (by omega) (by omega)]
        exact .idle (by omega) (by omega) fun hc => by have := hbalance hc; omega
      next hzero =>
        obtain rfl : count = 0 := by omega
        show Inv ⟨-1, some t, [t], signals, aborts, completed, cleared⟩
        exact .waiting t fun hc => by have := hbalance hc; omega
    | waitClear t =>
      cases hs
      exact .waiting t nofun
    | notifyAbort t =>
      cases hs
      exact .idle hcount hmax hbalance
  | @waiting u signals aborts completed cleared hbalance =>
    cases a with
    | signal =>
      cases hs
      show Inv ⟨0, none, [], signals + 1, aborts, completed + 1, cleared⟩
      exact .idle (by decide) (by decide) fun hc => by have := hbalance hc; omega
    | wait t | waitClear t =>
      obtain ⟨-, ⟨⟩⟩ := Option.ite_none_left_eq_some.mp hs
      exact .waiting u hbalance
    | notifyAbort t =>
      cases hs
      unfold evcNotifyAbort
      split
      · show Inv ⟨0, none, [], signals, aborts + 1, completed + 1, cleared⟩
        exact .idle (by decide) (by decide) fun hc => by have := hbalance hc; omega
      · exact .waiting u hbalance

/-- **An event counter counts** as long as there is room for another signal. -/
theorem evc_counts (h : (system (T := T)).Reach Room s) : Counts s := by
  have hinv : Inv s := by
    refine Lts.Reach.inv ?_ (fun s a s' hi hroom hs => hi.step hroom hs) h
    rintro s rfl
    exact .idle (by decide) (by decide) fun _ => rfl
  cases hinv with
  | @idle count signals aborts completed cleared hcount hmax hbalance =>
    exact ⟨iff_of_false (show count ≠ -1 by omega) nofun, show -1 ≤ count by omega, rfl, nofun,
      fun hc _ => hbalance hc⟩
  | waiting t hbalance =>
    exact ⟨iff_of_true rfl rfl, (show (-1 : Int) ≤ -1 by decide), rfl, fun _ _ => ⟨rfl, rfl⟩, nofun⟩

/-- A thread waits, another one is turned away, and of two signals one is left. -/
theorem evc_counts_twoSignals : Counts (T := Nat) ⟨1, none, [], 2, 0, 1, false⟩ := by
  have hok : (system).okRun Room evcInit [.wait 0, .wait 1, .signal, .signal] :=
    ⟨trivial, trivial, show (-1 : Int) < 2 ^ 31 - 1 by decide, show (0 : Int) < 2 ^ 31 - 1 by decide,
      trivial⟩
  exact evc_counts (.run _ (.start rfl) hok rfl)

theorem reach_pending (n : Nat) (hn : n < 2 ^ 31) :
    (system (T := Nat)).Reach anyStep ⟨n, none, [], n, 0, 0, false⟩ := by
  induction n with
  | zero => exact .start rfl
  | succ n ih =>
    refine .next (ih (by omega)) trivial (a := .signal) ?_
    show some (Evc.mk (toInt (n + 1)) none [] (n + 1) 0 0 false) = _
    rw [toInt_eq (by omega) (by omega)]
    rfl

/-- One more signal is lost, and the count is far below -1. -/
theorem signal_overflows : ∃ s, (system (T := Nat)).Reach anyStep s ∧ s.signals = 2147483648 ∧
    s.count = -2147483648 ∧ ¬ Counts s := by
  have hreach := reach_pending 2147483647 (by decide)
  exact ⟨_, .next hreach trivial (a := .signal) rfl, rfl, rfl, fun h => absurd h.bound (by decide)⟩

end Mach.Kern.EventCount
