import Mathlib.Algebra.GroupWithZero.Nat
import Mach.Lib.Transition
import Mach.Lib.DList

/-!
# Timers

`set_timeout`, `reset_timeout`, `softclock` and the tick count of `kern/mach_clock.c`, without
tickless timers. The timers that are set form a doubly linked list in the order of their
expiry, which `set_timeout` keeps by going along it to the place of the new timer. The only
end of that walk is the head of the list, whose expiry is the greatest number of its type.

`elapsed_ticks` is an `unsigned long`, of `w` bits; the interval of a timer is an
`unsigned int`, of 32.

Each setting of a timer has a number and a tick at which it is due. Both, and the number of
ticks as it would be without wrap-around, are kept beside the data of the kernel, to state
what the timers are for.
-/

namespace Mach.Kern.Timer

open Mach.Lib Mach.Lib.DList Function

/-- A timer, set for the `order`-th time a timer is set. -/
structure Setting where
  order : Nat
  due : Nat
deriving DecidableEq

structure Call where
  setting : Setting
  tick : Nat
deriving DecidableEq

/-- Timers are numbered; the head of the list is `none`. -/
structure State where
  links : Links (Option Nat)
  ticks : Nat → Nat
  /-- `TELT_SET`. -/
  isSet : Nat → Bool
  elapsedTicks : Nat
  /-- What `softclock` has taken out of the list and calls next; the head has no setting. -/
  calling : Option (Option Setting)
  /-- `set_timeout` goes round the list for ever. -/
  looping : Bool
  /-- `softclock` has called the function of the head, which is null. -/
  crashed : Bool
  now : Nat
  setting : Nat → Setting
  sets : Nat
  called : List Call
  /-- The settings for which `reset_timeout` has returned true. -/
  cancelled : List Setting

/-! ## The list -/

/-- `insque`. -/
def insque (m : Links (Option Nat)) (entry pred : Option Nat) : Links (Option Nat) :=
  let m := { m with next := update m.next entry (m.next pred) }
  let m := { m with prev := update m.prev entry pred }
  let m := { m with prev := update m.prev (m.next pred) entry }
  { m with next := update m.next pred entry }

/-- `remqueue`. -/
def remqueue (m : Links (Option Nat)) (elt : Option Nat) : Links (Option Nat) :=
  let m := { m with prev := update m.prev (m.next elt) (m.prev elt) }
  { m with next := update m.next (m.prev elt) (m.next elt) }

def State.ticksOf (w : Nat) (s : State) : Option Nat → Nat
  | none => 2 ^ w - 1
  | some t => s.ticks t

/-- The walk of `set_timeout`, for `fuel` steps. -/
def scan (w : Nat) (s : State) (interval : Nat) : Nat → Option Nat → Option (Option Nat)
  | 0, _ => none
  | fuel + 1, next =>
    if s.ticksOf w next > interval then some next
    else scan w s interval fuel (s.links.next next)

/-! ## The calls -/

/-- `set_timeout`. The list is not longer than timers have been set, so a walk that has not
ended after as many steps has gone round it. -/
def setTimeout (w : Nat) (s : State) (t : Nat) (interval : UInt32) : State :=
  let expiry := (interval.toNat + s.elapsedTicks) % 2 ^ 32
  match scan w s expiry (s.sets + 1) (s.links.next none) with
  | none => { s with looping := true }
  | some next =>
    { s with
      ticks := update s.ticks t expiry
      links := insque s.links (some t) (s.links.prev next)
      isSet := update s.isSet t true
      setting := update s.setting t ⟨s.sets, s.now + interval.toNat⟩
      sets := s.sets + 1 }

/-- `reset_timeout`, and what it returns. -/
def resetTimeout (s : State) (t : Nat) : Bool × State :=
  if s.isSet t then
    (true,
      { s with
        links := remqueue s.links (some t)
        isSet := update s.isSet t false
        cancelled := s.setting t :: s.cancelled })
  else (false, s)

/-- The tick of `clock_interrupt`. -/
def clockTick (w : Nat) (s : State) : State :=
  { s with elapsedTicks := (s.elapsedTicks + 1) % 2 ^ w, now := s.now + 1 }

/-- The locked section of `softclock`: it ends, or takes out the first of the list. -/
def softclock (w : Nat) (s : State) : State :=
  let telt := s.links.next none
  if s.ticksOf w telt > s.elapsedTicks then s
  else
    { s with
      links := remqueue s.links telt
      isSet := telt.elim s.isSet fun t => update s.isSet t false
      calling := some (telt.map s.setting) }

/-- `softclock` calls a function. -/
def callFunction (s : State) : State :=
  match s.calling with
  | none => s
  | some none => { s with calling := none, crashed := true }
  | some (some c) => { s with calling := none, called := ⟨c, s.now⟩ :: s.called }

/-! ## Runs -/

inductive Action
  | set (t : Nat) (interval : UInt32)
  | reset (t : Nat)
  | tick
  /-- `softclock` looks at the list, if it is not about to call a function. -/
  | look
  | call

def step (w : Nat) (s : State) : Action → Option State
  | .set t interval => some (setTimeout w s t interval)
  | .reset t => some (resetTimeout s t).2
  | .tick => some (clockTick w s)
  | .look => if s.calling.isSome then none else some (softclock w s)
  | .call => if s.calling.isSome then some (callFunction s) else none

/-- After `init_timeout`; the ticks may have any value. -/
structure Empty (w : Nat) (s : State) : Prop where
  next : s.links.next none = none
  prev : s.links.prev none = none
  isSet : ∀ t, s.isSet t = false
  elapsed : s.elapsedTicks = s.now ∧ s.elapsedTicks < 2 ^ w
  fresh : s.calling = none ∧ s.looping = false ∧ s.crashed = false ∧ s.sets = 0 ∧
    s.called = [] ∧ s.cancelled = []

def system (w : Nat) : Lts State Action where
  init := Empty w
  step := step w

/-! ## What the timers are for -/

def Setting.Before (a b : Setting) : Prop :=
  a.due < b.due ∨ a.due = b.due ∧ a.order < b.order

/-- The settings that `softclock` holds. -/
def State.inCall (s : State) : List Setting := (s.calling.getD none).toList

/-- The timers `xs` wait, and everything that timers are for has been kept. -/
structure Punctual (w : Nat) (s : State) (xs : List Nat) : Prop where
  ring : Ring s.links none (xs.map some)
  isSet : ∀ t, s.isSet t = true ↔ t ∈ xs
  sorted : (xs.map s.ticks ++ [2 ^ w - 1]).Pairwise (· ≤ ·)
  /-- Each setting waits, is about to be called, has been called or has been cancelled, and
  that once. -/
  once : (xs.map s.setting ++ s.inCall ++ s.called.map Call.setting ++ s.cancelled).map
    Setting.order |>.Perm (List.range s.sets)
  due : ∀ c ∈ s.called, c.setting.due ≤ c.tick
  order : (s.called.map Call.setting).Pairwise fun new old => old.Before new
  /-- When `softclock` has nothing to take out, no timer is due. -/
  done : s.ticksOf w (s.links.next none) > s.elapsedTicks →
    ∀ t, s.isSet t = true → s.now < (s.setting t).due
  terminates : s.looping = false
  alive : s.crashed = false

/-- A step that the numbers are wide enough for: the expiry of a timer is a number of 32 bits
and below the sentinel, as are the ticks; and a timer is not set twice. -/
def InRange (w : Nat) (s : State) : Action → Prop
  | .set t interval => s.isSet t = false ∧ s.elapsedTicks + interval.toNat < 2 ^ 32 ∧
      s.elapsedTicks + interval.toNat < 2 ^ w - 1
  | .tick => s.elapsedTicks + 1 < 2 ^ w - 1
  | .look => s.elapsedTicks < 2 ^ w - 1
  | _ => True

end Mach.Kern.Timer
