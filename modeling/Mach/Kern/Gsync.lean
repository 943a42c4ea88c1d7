import Mathlib.Algebra.GroupWithZero.Nat
import Mach.Kern.ListNode
import Mach.Lib.Transition

/-!
# Wait queues of `gsync`

The hash table of `kern/gsync.c`: each bucket is a list of waiters that is sorted by their keys.
`gsync_wait` inserts a waiter and takes it out again if its wait has been ended by a timeout or
an interruption, `gsync_wake` takes waiters out, and `gsync_requeue` gives waiters another key
and cuts them out of one bucket into another, by assignments of its own.

A section under the lock of a bucket, or of two, is one step. A walk along a list that has not
come to its head after as many nodes as there have been waiters never will; the state is
`broken` then, as it is when something is used as a waiter that is not one.
-/

namespace Mach.Kern.Gsync

open Mach.Lib Mach.Lib.DList Mach.Kern.ListNode Function

/-! ## Keys -/

/-- `union gsync_key`: the two words by which keys are compared. -/
structure Key where
  u : Nat
  v : Nat
deriving DecidableEq

/-- `gsync_key_lt`. -/
def Key.lt (l r : Key) : Bool := l.u < r.u || (l.u = r.u && l.v < r.v)

/-- `MIX2_LL`, in an `unsigned int`. -/
def mix2 (x y : Nat) : Nat := (((x <<< 5) % 2 ^ 32 ||| x >>> 27) ^^^ y) % 2 ^ 32

/-- `gsync_key_hash`, on machines with 32 and with 64 bits. -/
def Key.hash (lp64 : Bool) (k : Key) : Nat :=
  if lp64 then
    mix2 (mix2 (mix2 (mix2 8 (k.u % 2 ^ 32)) (k.u >>> 32)) (k.v % 2 ^ 32)) (k.v >>> 32)
  else mix2 (mix2 4 k.u) k.v

/-- The bucket of a key, as `gsync_prepare_key` returns it. -/
def Key.bucket (lp64 : Bool) (k : Key) : Nat := k.hash lp64 % 512

/-! ## The table -/

/-- The nodes that links point to: nothing, the head of a bucket, or the link of a waiter. Each
call of `gsync_wait` has a waiter of its own, on its stack. -/
inductive Node
  | null
  | head (b : Nat)
  | waiter (w : Nat)
deriving DecidableEq

/-- A call of `gsync_wait` is not there, waits in a bucket, or has been woken and taken out. -/
inductive Place
  | out
  | queued
  | woken
deriving DecidableEq

structure State where
  links : Links Node
  key : Nat → Key
  place : Nat → Place
  waits : Nat
  broken : Bool

/-- `list_for_each` along a bucket, from the node `n` up to a key that satisfies `stop`. -/
def State.walk (s : State) (b : Nat) (stop : Key → Bool) : Nat → Node → Option Node
  | 0, _ => none
  | fuel + 1, n =>
    if n = .head b then some n
    else
      match n with
      | .waiter w => if stop (s.key w) then some n else s.walk b stop fuel (s.links.next n)
      | _ => none

/-- `gsync_key_eq`, for the key of a node. -/
def State.hasKey (s : State) (k : Key) : Node → Bool
  | .waiter w => s.key w = k
  | _ => false

/-- `gsync_find_key`. It has found an exact match if the node has the key. -/
def gsyncFindKey (s : State) (b : Nat) (k : Key) : Option Node :=
  s.walk b (fun k' => k.lt k' || k = k') (s.waits + 1) (s.links.next (.head b))

section

variable (lp64 : Bool)

/-- `gsync_wait`, when the word is as expected. -/
def gsyncWait (s : State) (w : Nat) (k : Key) : State :=
  let b := k.bucket lp64
  match s.walk b (fun k' => k.lt k') (s.waits + 1) (s.links.next (.head b)) with
  | none => { s with broken := true }
  | some runp =>
    { s with
      links := listAdd s.links (s.links.prev runp) runp (.waiter w)
      key := update s.key w k
      place := update s.place w .queued
      waits := s.waits + 1 }

/-- `gsync_wait` again, when the wait has been ended by something else than a wake-up. -/
def gsyncLeave (s : State) (w : Nat) : State :=
  { s with
    links := if s.links.prev (.waiter w) = .null then s.links else listRemove s.links (.waiter w)
    place := update s.place w .out }

/-- `list_node_init`. -/
def listNodeInit (m : Links Node) (n : Node) : Links Node :=
  ⟨update m.next n .null, update m.prev n .null⟩

/-- `dequeue_waiter`, with the node that it returns. -/
def dequeueWaiter (s : State) : Node → Node × State
  | .waiter w =>
    (s.links.next (.waiter w),
      { s with
        links := listNodeInit (listRemove s.links (.waiter w)) (.waiter w)
        place := update s.place w .woken })
  | n => (n, { s with broken := true })

/-- The loop of `gsync_wake`. -/
def wakeLoop (b : Nat) (k : Key) (broadcast : Bool) : Nat → State → Node → State
  | 0, s, _ => { s with broken := true }
  | fuel + 1, s, runp =>
    let d := dequeueWaiter s runp
    if broadcast && d.1 ≠ .head b && d.2.hasKey k d.1 then wakeLoop b k broadcast fuel d.2 d.1
    else d.2

inductive Result
  | success
  | invalidArgument
deriving DecidableEq

def gsyncWake (s : State) (k : Key) (broadcast : Bool) : Result × State :=
  let b := k.bucket lp64
  match gsyncFindKey s b k with
  | none => (.invalidArgument, { s with broken := true })
  | some runp =>
    if s.hasKey k runp then (.success, wakeLoop b k broadcast (s.waits + 1) s runp)
    else (.invalidArgument, s)

/-- The loop of `gsync_requeue` that gives waiters their new key, with the node it ends at. -/
def requeueLoop (b : Nat) (src dst : Key) (broadcast : Bool) :
    Nat → State → Nat → Node → Option (State × Node)
  | fuel + 1, s, nw, .waiter w =>
    let s := { s with key := update s.key w dst }
    let endp := s.links.next (.waiter w)
    let nw := if broadcast then nw else nw - 1
    if (broadcast || nw ≠ 0) && endp ≠ .head b && s.hasKey src endp then
      requeueLoop b src dst broadcast fuel s nw endp
    else some (s, endp)
  | _, _, _, _ => none

/-- The assignments of `gsync_requeue` that move the nodes from `inp` up to `endp`. -/
def splice (m : Links Node) (inp endp outp : Node) : Links Node :=
  let m := { m with next := update m.next (m.prev inp) endp }
  let m := { m with next := update m.next (m.prev endp) (m.next outp) }
  let m := { m with prev := update m.prev endp (m.prev inp) }
  let m := { m with next := update m.next outp inp }
  { m with prev := update m.prev inp outp }

/-- `gsync_requeue`. The variable `exact` is set by `gsync_find_key` if it finds the key; it
has no value before. -/
def gsyncRequeue (s : State) (src dst : Key) (broadcast wakeOne exact : Bool) : Result × State :=
  match gsyncFindKey s (src.bucket lp64) src with
  | none => (.invalidArgument, { s with broken := true })
  | some inp =>
    if s.hasKey src inp || exact then
      match gsyncFindKey s (dst.bucket lp64) dst with
      | none => (.success, { s with broken := true })
      | some outp =>
        match requeueLoop (src.bucket lp64) src dst broadcast (s.waits + 1) s
            (1 + wakeOne.toNat) inp with
        | none => (.success, { s with broken := true })
        | some (s, endp) =>
          let s := { s with links := splice s.links inp endp outp }
          (.success, if wakeOne then (dequeueWaiter s inp).2 else s)
    else (.invalidArgument, s)

/-! ## Runs -/

inductive Action
  | wait (w : Nat) (k : Key)
  | leave (w : Nat)
  | wake (k : Key) (broadcast : Bool)
  | requeue (src dst : Key) (broadcast wakeOne exact : Bool)

def step (s : State) : Action → Option State
  | .wait w k => if s.place w = .out then some (gsyncWait lp64 s w k) else none
  | .leave w => if s.place w = .out then none else some (gsyncLeave s w)
  | .wake k broadcast => some (gsyncWake lp64 s k broadcast).2
  | .requeue src dst broadcast wakeOne exact =>
    some (gsyncRequeue lp64 s src dst broadcast wakeOne exact).2

/-- `gsync_setup`. -/
structure Fresh (s : State) : Prop where
  next : ∀ b, s.links.next (.head b) = .head b
  prev : ∀ b, s.links.prev (.head b) = .head b
  place : ∀ w, s.place w = .out
  broken : s.broken = false

def system : Lts State Action where
  init := Fresh
  step := step lp64

/-! ## What the queues are for -/

structure Sound (s : State) (lists : Nat → List Nat) : Prop where
  ring : ∀ b, Ring s.links (.head b) ((lists b).map .waiter)
  sorted : ∀ b, ((lists b).map s.key).Pairwise fun k k' => k'.lt k = false
  hashed : ∀ b, ∀ w ∈ lists b, (s.key w).bucket lp64 = b
  queued : ∀ w, s.place w = .queued ↔ ∃ b, w ∈ lists b
  intact : s.broken = false

/-- The waiters that are to get another key: the first ones of those with the key `src`. -/
def movers (s : State) (xs : List Nat) (src : Key) (broadcast wakeOne : Bool) : List Nat :=
  let ws := xs.filter fun w => s.key w = src
  if broadcast then ws else ws.take (1 + wakeOne.toNat)

/-- What `gsync_requeue` is for. -/
structure Requeues (s : State) (ms : List Nat) (src dst : Key) (wakeOne : Bool)
    (r : Result × State) : Prop where
  result : r.1 = .success ↔ ∃ w, s.place w = .queued ∧ s.key w = src
  key : r.1 = .success → ∀ w, r.2.key w = if w ∈ ms then dst else s.key w
  wakes : r.1 = .success → wakeOne = true →
    ∃ w ∈ ms, r.2.place = update s.place w .woken
  keeps : r.1 = .success → wakeOne = false → r.2.place = s.place
  fails : r.1 ≠ .success → r.2 = s

/-- What `gsync_wake` is for: it wakes a waiter with the key if there is one, and nobody with
another key. -/
structure Wakes (s : State) (k : Key) (r : Result × State) : Prop where
  result : r.1 = .success ↔ ∃ w, s.place w = .queued ∧ s.key w = k
  wakes : r.1 = .success → ∃ w, s.place w = .queued ∧ s.key w = k ∧ r.2.place w = .woken
  others : ∀ w, s.key w ≠ k → r.2.place w = s.place w

/-- No waiter has the key of the source, and the variable that says so happens to be zero; or
exactly one has, and it is to be woken. -/
def Lucky (s : State) : Action → Prop
  | .requeue src _ _ wakeOne exact =>
    (∀ w, s.place w = .queued → s.key w ≠ src) ∧ exact = false ∨
      (∃ w, s.place w = .queued ∧ s.key w = src ∧
        ∀ w', s.place w' = .queued → s.key w' = src → w' = w) ∧ wakeOne = true
  | _ => True

end

end Mach.Kern.Gsync
