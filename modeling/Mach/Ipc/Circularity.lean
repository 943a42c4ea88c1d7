import Mach.Lib.Transition
import Mach.Lib.Chain

/-!
# Receive rights in transit

A receive right on its way in a message makes its port point, by
`ip_destination`, at the port the message is queued on. If those pointers ever
closed a circle the ports on it could never be received from again, so
`ipc_port_check_circularity` tests a new pointer before it sets it — while other
threads move receive rights, destroy ports and run the same check.

The routine is embedded section by section (`ipc/ipc_port.c`): between two
sections other threads run, and what keeps them off is exactly what keeps them
off in the source, the port locks, the multiple lock and the fact that a receive
right in limbo is in the hands of one thread (`checked`).

Ports and threads are arbitrary types. The graph lemmas are in `Lib/Chain`.
-/

namespace Mach.Ipc.Circularity

open Lib.Chain Function

variable {P T : Type} [DecidableEq P] [DecidableEq T]

/-- Where a receive right is: held under a name (`ip_receiver_name` is not null),
in limbo, or in transit in a message to `ip_destination`. -/
inductive Place (P : Type)
  | named
  | limbo
  | transit (dest : P)
  deriving DecidableEq

structure Port (P : Type) where
  active : Bool
  place : Place P
  deriving DecidableEq

/-- The link the check follows: `ip_destination` of an active port in transit. -/
def Port.next (x : Port P) : Option P :=
  if x.active then
    match x.place with
    | .transit d => some d
    | _ => none
  else none

/-- Where a thread is in `ipc_port_check_circularity`. -/
inductive Pc (P : Type)
  | idle
  | start (port dest : P)
  | slow (port dest : P)
  /-- in the search loop: `chain` is locked and `base` is looked at next -/
  | walk (port dest base : P) (chain : List P)
  /-- the search loop ended: `chain` and `base` are locked -/
  | found (port dest base : P) (chain : List P)
  | unlocking (port : P) (locked : List P) (result : Bool)
  deriving DecidableEq

/-- The ports, the threads, who has locked a port, who has the multiple lock and
which thread has the receive right it is checking in its hands. -/
structure State (P T : Type) where
  port : P → Port P
  pc : T → Pc P
  lock : P → Option T
  multi : Option T
  checked : P → Option T

namespace State

def next (s : State P T) (p : P) : Option P := (s.port p).next

def setPort (s : State P T) (p : P) (x : Port P) : State P T :=
  { s with port := update s.port p x }

def setPc (s : State P T) (t : T) (pc : Pc P) : State P T :=
  { s with pc := update s.pc t pc }

def setLock (s : State P T) (p : P) (o : Option T) : State P T :=
  { s with lock := update s.lock p o }

/-- `port->ip_destination = dest`. -/
def link (s : State P T) (port dest : P) : State P T :=
  s.setPort port { s.port port with place := .transit dest }

def free (s : State P T) (p : P) : Bool :=
  (s.port p).active && (s.lock p).isNone && (s.checked p).isNone

end State

inductive Action (P T : Type)
  /-- `ipc_right_copyin` of a receive right, or `ipc_port_destroy` with a backup -/
  | toLimbo (p : P)
  /-- `ipc_right_copyout` of a receive right -/
  | copyout (p : P)
  | destroy (p : P)
  /-- a thread calls `ipc_port_check_circularity` on a port in limbo -/
  | check (t : T) (port dest : P)
  /-- the quick check that can run in parallel, with what `ip_lock_try` gives if it can -/
  | quick (t : T) (got : Bool)
  /-- `ipc_port_multiple_lock` -/
  | serialize (t : T)
  | lockBase (t : T)
  | conclude (t : T)
  | unlock (t : T)
  deriving DecidableEq

def step (s : State P T) : Action P T → Option (State P T)
  | .toLimbo p =>
    if s.free p then some (s.setPort p { s.port p with place := .limbo }) else none
  | .copyout p =>
    if s.free p ∧ (s.port p).place ≠ .named then
      some (s.setPort p { s.port p with place := .named })
    else none
  | .destroy p =>
    if s.free p then some (s.setPort p { s.port p with active := false }) else none
  | .check t port dest =>
    if s.pc t = .idle ∧ (s.port port).active ∧ (s.port port).place = .limbo ∧
        s.checked port = none then
      let s := { s with checked := update s.checked port (some t) }
      if port = dest then some (s.setPc t (.unlocking port [] true))
      else some (s.setPc t (.start port dest))
    else none
  | .quick t got =>
    match s.pc t with
    | .start port dest =>
      if s.lock port ≠ none then none
      -- the lock on dest is only tried, and that may fail at any time
      else if got ∧ s.lock dest = none ∧ s.next dest = none then
        some ((s.link port dest).setPc t (.unlocking port [] false))
      else some (s.setPc t (.slow port dest))
    | _ => none
  | .serialize t =>
    match s.pc t with
    | .slow port dest =>
      if s.multi = none then some ({ s with multi := some t }.setPc t (.walk port dest dest []))
      else none
    | _ => none
  | .lockBase t =>
    match s.pc t with
    | .walk port dest base chain =>
      if s.lock base ≠ none then none
      else
        let s := s.setLock base (some t)
        match s.next base with
        | none => some (s.setPc t (.found port dest base chain))
        | some d => some (s.setPc t (.walk port dest d (chain ++ [base])))
    | _ => none
  | .conclude t =>
    match s.pc t with
    | .found port dest base chain =>
      if port = base then
        -- circularity detected
        some ({ s with multi := none }.setPc t (.unlocking port (chain ++ [base]) true))
      else if s.lock port ≠ none then none
      else
        -- port is locked while the entire chain is locked
        let s := { s.setLock port (some t) with multi := none }
        some ((s.link port dest).setPc t (.unlocking port (port :: (chain ++ [base])) false))
    | _ => none
  | .unlock t =>
    match s.pc t with
    | .unlocking port (p :: ps) result =>
      some ((s.setLock p none).setPc t (.unlocking port ps result))
    | .unlocking port [] _ =>
      some ({ s with checked := update s.checked port none }.setPc t .idle)
    | _ => none

/-- The steps, one constructor for each way an action can go: `step_inv` turns an
equation about `step` into one of these. -/
inductive Step (s : State P T) : Action P T → State P T → Prop
  | toLimbo {p : P} (hf : s.free p) :
      Step s (.toLimbo p) (s.setPort p { s.port p with place := .limbo })
  | copyout {p : P} (hf : s.free p) :
      Step s (.copyout p) (s.setPort p { s.port p with place := .named })
  | destroy {p : P} (hf : s.free p) :
      Step s (.destroy p) (s.setPort p { s.port p with active := false })
  | same {t : T} {port : P} (hpc : s.pc t = .idle) (hc : s.checked port = none) :
      Step s (.check t port port)
        ({ s with checked := update s.checked port (some t) }.setPc t
          (.unlocking port [] true))
  | check {t : T} {port dest : P} (hpc : s.pc t = .idle) (ha : (s.port port).active)
      (hl : (s.port port).place = .limbo) (hc : s.checked port = none) (hne : port ≠ dest) :
      Step s (.check t port dest)
        ({ s with checked := update s.checked port (some t) }.setPc t
          (.start port dest))
  | quick {t : T} {got : Bool} {port dest : P} (hpc : s.pc t = .start port dest) (hp : s.lock port = none)
      (hd : s.next dest = none) :
      Step s (.quick t got) ((s.link port dest).setPc t (.unlocking port [] false))
  | further {t : T} {got : Bool} {port dest : P} (hpc : s.pc t = .start port dest) :
      Step s (.quick t got) (s.setPc t (.slow port dest))
  | serialize {t : T} {port dest : P} (hpc : s.pc t = .slow port dest) (hm : s.multi = none) :
      Step s (.serialize t) ({ s with multi := some t }.setPc t (.walk port dest dest []))
  | lockLast {t : T} {port dest base : P} {chain : List P}
      (hpc : s.pc t = .walk port dest base chain) (hb : s.lock base = none)
      (hn : s.next base = none) :
      Step s (.lockBase t)
        ((s.setLock base (some t)).setPc t (.found port dest base chain))
  | lockBase {t : T} {port dest base d : P} {chain : List P}
      (hpc : s.pc t = .walk port dest base chain) (hb : s.lock base = none)
      (hn : s.next base = some d) :
      Step s (.lockBase t)
        ((s.setLock base (some t)).setPc t (.walk port dest d (chain ++ [base])))
  | circular {t : T} {port dest : P} {chain : List P}
      (hpc : s.pc t = .found port dest port chain) :
      Step s (.conclude t)
        ({ s with multi := none }.setPc t (.unlocking port (chain ++ [port]) true))
  | conclude {t : T} {port dest base : P} {chain : List P}
      (hpc : s.pc t = .found port dest base chain) (hne : port ≠ base)
      (hp : s.lock port = none) :
      Step s (.conclude t)
        (({ s.setLock port (some t) with multi := none }.link port dest).setPc t
          (.unlocking port (port :: (chain ++ [base])) false))
  | unlock {t : T} {port p : P} {ps : List P} {result : Bool}
      (hpc : s.pc t = .unlocking port (p :: ps) result) :
      Step s (.unlock t) ((s.setLock p none).setPc t (.unlocking port ps result))
  | done {t : T} {port : P} {result : Bool} (hpc : s.pc t = .unlocking port [] result) :
      Step s (.unlock t)
        ({ s with checked := update s.checked port none }.setPc t .idle)

theorem step_inv {s s' : State P T} {a : Action P T} (h : step s a = some s') : Step s a s' := by
  cases a with
  | toLimbo p =>
    simp only [step] at h
    split at h <;> cases h
    exact .toLimbo ‹_›
  | copyout p =>
    simp only [step] at h
    split at h
    next hf => cases h; exact .copyout hf.1
    next => cases h
  | destroy p =>
    simp only [step] at h
    split at h <;> cases h
    exact .destroy ‹_›
  | check t port dest =>
    simp only [step] at h
    split at h
    next hg =>
      obtain ⟨hpc, ha, hl, hc⟩ := hg
      split at h <;> cases h
      next heq => subst heq; exact .same hpc hc
      next hne => exact .check hpc ha hl hc hne
    next => cases h
  | quick t got =>
    simp only [step] at h
    split at h
    next port dest hpc =>
      split at h
      · cases h
      rename_i hp
      split at h <;> cases h
      next hd => exact .quick hpc (not_not.mp hp) hd.2.2
      next => exact .further hpc
    next => cases h
  | serialize t =>
    simp only [step] at h
    split at h
    next port dest hpc =>
      split at h <;> cases h
      exact .serialize hpc ‹_›
    next => cases h
  | lockBase t =>
    simp only [step] at h
    split at h
    next port dest base chain hpc =>
      split at h
      · cases h
      rename_i hb
      split at h <;> cases h
      next hn => exact .lockLast hpc (not_not.mp hb) hn
      next d hn => exact .lockBase hpc (not_not.mp hb) hn
    next => cases h
  | conclude t =>
    simp only [step] at h
    split at h
    next port dest base chain hpc =>
      split at h
      next heq => cases h; subst heq; exact .circular hpc
      next hne =>
        split at h <;> cases h
        next hp => exact .conclude hpc hne (not_not.mp hp)
    next => cases h
  | unlock t =>
    simp only [step] at h
    split at h <;> cases h
    next hpc => exact .unlock hpc
    next hpc => exact .done hpc

/-- No right in transit yet and no check going on; any ports may exist, under
names or in limbo. -/
def init (s : State P T) : Prop :=
  (∀ p d, (s.port p).place ≠ .transit d) ∧ (∀ t, s.pc t = .idle) ∧
  (∀ p, s.lock p = none) ∧ s.multi = none ∧ ∀ p, s.checked p = none

def lts : Lib.Lts (State P T) (Action P T) := ⟨init, step⟩

end Mach.Ipc.Circularity
