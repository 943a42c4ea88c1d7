import Mach.Lib.Slots

/-!
# Radix trees

`kern/rdxtree.c`: a map from 64-bit keys to pointers, six bits of the key for each
level. A tree of height `h` has `h` levels of nodes; at height 0 the root is the
stored pointer itself. Every node counts its entries and carries an allocation
bitmap, from which `rdxtree_insert_alloc` picks a key.

The source walks down a path and comes back up along parent pointers
(`rdxtree_insert_bm_clear`, `rdxtree_remove_bm_set`, `rdxtree_cleanup`). Here the
walk is a recursion over the height, and what has to happen on the way up is what a
level returns to the one above it. The creation of a node can fail: `avail` is the
number of creations that still succeed, and a call ends at the first that does not.
-/

namespace Mach.Kern.Radix

open Lib.Slots

/-- A node has a slot 0. -/
instance slotZero : NeZero 64 := ⟨by decide⟩

/-- `rdxtree_node`, over the type of what its slots hold. -/
structure Node (β : Type) where
  nrEntries : Nat
  allocBm : BitVec 64
  entries : Fin 64 → Option β

namespace Node

variable {β : Type}

/-- `rdxtree_node_create`. -/
def create : Node β where
  nrEntries := 0
  allocBm := BitVec.allOnes 64
  entries _ := none

def full (n : Node β) : Bool := n.nrEntries = 64

def empty (n : Node β) : Bool := n.nrEntries = 0

/-- The slot holds `x`; `rdxtree_node_insert` if it was free. -/
def insert (n : Node β) (i : Fin 64) (x : β) : Node β :=
  { n with
    nrEntries := if (n.entries i).isNone then n.nrEntries + 1 else n.nrEntries
    entries := Function.update n.entries i (some x) }

/-- The slot is free; `rdxtree_node_remove` if it was not. -/
def remove (n : Node β) (i : Fin 64) : Node β :=
  { n with
    nrEntries := if (n.entries i).isSome then n.nrEntries - 1 else n.nrEntries
    entries := Function.update n.entries i none }

def bmSet (n : Node β) (i : Fin 64) : Node β := { n with allocBm := setBit n.allocBm i }

def bmClear (n : Node β) (i : Fin 64) : Node β := { n with allocBm := clearBit n.allocBm i }

def raise (n : Node β) (i : Fin 64) (up : Bool) : Node β := if up then n.bmSet i else n

def bmIsSet (n : Node β) (i : Fin 64) : Bool := isSet n.allocBm i

def bmEmpty (n : Node β) : Bool := n.allocBm = 0

def bmFirst (n : Node β) : Option (Fin 64) := firstSet n.allocBm

end Node

/-- What lies under a slot `h` levels above the stored pointers. -/
def Tree (α : Type) : Nat → Type
  | 0 => α
  | h + 1 => Node (Tree α h)

/-- `struct rdxtree`. -/
structure Rdxtree (α : Type) where
  height : Nat
  root : Option (Tree α height)

variable {α : Type}

/-- `RDXTREE_INITIALIZER`. -/
def Rdxtree.init : Rdxtree α := ⟨0, none⟩

/-- `rdxtree_max_key`. -/
def maxKey (height : Nat) : Nat := if 6 * height < 64 then 2 ^ (6 * height) - 1 else 2 ^ 64 - 1

/-- `(key >> shift) & RDXTREE_RADIX_MASK`, `h` levels above the stored pointers. -/
def index (key h : Nat) : Fin 64 := ⟨digit 64 key h, Nat.mod_lt _ (by decide)⟩

/-! ## Lookup -/

def lookupAt (key : Nat) : (h : Nat) → Option (Tree α h) → Option α
  | 0, c => c
  | _ + 1, none => none
  | h + 1, some n => lookupAt key h (Node.entries n (index key h))

/-- `rdxtree_lookup`. -/
def Rdxtree.lookup (t : Rdxtree α) (key : Nat) : Option α :=
  if maxKey t.height < key then none else lookupAt key t.height t.root

/-! ## Insertion below a slot -/

inductive Outcome (τ : Type)
  /-- done; `clear` says that `rdxtree_insert_bm_clear` goes on in the node above -/
  | ok (t : τ) (clear : Bool)
  | busy
  | noRoom (height : Nat)
  /-- a node could not be created; what `rdxtree_cleanup` leaves under the slot, and
  whether it stopped in the very node under the slot -/
  | nomem (t : Option τ) (here : Bool)

/-- Back in a node, after its slot `i` was dealt with. -/
def Node.afterInsert {β : Type} (n : Node β) (i : Fin 64) : Outcome β → Outcome (Node β)
  | .ok child clear =>
    let n := n.insert i child
    let n := if clear then n.bmClear i else n
    .ok n (clear && n.full)
  | .busy => .busy
  | .noRoom h => .noRoom h
  | .nomem none _ =>
    let n := n.remove i
    .nomem (if n.empty then none else some n) true
  | .nomem (some child) _ => .nomem (some (n.insert i child)) false

def enter {β : Type} (c : Option (Node β)) (avail : Nat) : Option (Node β × Nat) :=
  match c, avail with
  | some n, _ => some (n, avail)
  | none, 0 => none
  | none, avail + 1 => some (Node.create, avail)

/-- The loop of `rdxtree_insert_common`. -/
def insertAt (v : α) (key : Nat) : (h : Nat) → Option (Tree α h) → Nat → Outcome (Tree α h)
  | 0, none, _ => .ok v true
  | 0, some _, _ => .busy
  | h + 1, c, avail =>
    match enter c avail with
    | none => .nomem none true
    | some (n, avail) =>
      let i := index key h
      n.afterInsert i (insertAt v key h (n.entries i) avail)

/-- The loop of `rdxtree_insert_alloc_common`, with the key it has put together.
At height 0 a pointer under the slot means that the tree has to grow. -/
def allocAt (v : α) : (h : Nat) → Option (Tree α h) → Nat → Outcome (Tree α h) × Nat
  | 0, none, _ => (.ok v true, 0)
  | 0, some _, _ => (.noRoom 0, 0)
  | h + 1, c, avail =>
    match enter c avail with
    | none => (.nomem none true, 0)
    | some (n, avail) =>
      match n.bmFirst with
      | none => (.noRoom (h + 1), 0)
      | some i =>
        let r := allocAt v h (n.entries i) avail
        (n.afterInsert i r.1, i * 64 ^ h + r.2)

/-! ## Growing and shrinking -/

/-- `rdxtree_shrink`. -/
def shrink : (h : Nat) → Tree α h → Rdxtree α
  | 0, r => ⟨0, some r⟩
  | h + 1, n =>
    if Node.nrEntries n ≠ 1 then ⟨h + 1, some n⟩
    else
      match Node.entries n 0 with
      | none => ⟨h + 1, some n⟩
      | some r => shrink h r

def noRoom : (h : Nat) → Tree α h → Bool
  | 0, _ => true
  | _ + 1, n => Node.bmEmpty n

/-- The node `rdxtree_grow` puts above the root. -/
def above (h : Nat) (root : Tree α h) : Tree α (h + 1) :=
  let n : Node (Tree α h) := .create
  let n := if noRoom h root then n.bmClear 0 else n
  n.insert 0 root

/-- The loop of `rdxtree_grow`: `n` more levels. Success, the creations left, the tree. -/
def growLoop : (n h : Nat) → Tree α h → Nat → Bool × Nat × Rdxtree α
  | 0, h, root, avail => (true, avail, ⟨h, some root⟩)
  | _ + 1, h, root, 0 => (false, 0, shrink h root)
  | n + 1, h, root, avail + 1 => growLoop n (h + 1) (above h root) avail

/-- `while (key > rdxtree_max_key(new_height)) new_height++`. Eleven levels cover
every key. -/
def newHeight (key : Nat) : (fuel h : Nat) → Nat
  | 0, h => h
  | fuel + 1, h => if maxKey h < key then newHeight key fuel (h + 1) else h

/-- `rdxtree_grow`. -/
def Rdxtree.grow (t : Rdxtree α) (key avail : Nat) : Bool × Nat × Rdxtree α :=
  let height := newHeight key 11 (t.height + 1)
  match t.root with
  | none => (true, avail, ⟨height, none⟩)
  | some root => growLoop (height - t.height) t.height root avail

/-! ## The operations -/

/-- `ERR_SUCCESS`, `ERR_BUSY`, `ERR_NOMEM`. -/
inductive Err
  | success | busy | nomem
  deriving DecidableEq

def Rdxtree.finish (t : Rdxtree α) : Outcome (Tree α t.height) → Err × Rdxtree α
  | .ok root _ => (.success, ⟨t.height, some root⟩)
  | .busy => (.busy, t)
  | .noRoom _ => (.busy, t)
  | .nomem none _ => (.nomem, ⟨0, none⟩)
  | .nomem (some root) here =>
    (.nomem, if here then shrink t.height root else ⟨t.height, some root⟩)

/-- `rdxtree_insert_common`. -/
def Rdxtree.insert (t : Rdxtree α) (key : Nat) (v : α) (avail : Nat) : Err × Rdxtree α :=
  match if maxKey t.height < key then t.grow key avail else (true, avail, t) with
  | (false, _, t) => (.nomem, t)
  | (true, avail, t) => t.finish (insertAt v key t.height t.root avail)

/-- `rdxtree_insert_alloc_common`, with the key. -/
def Rdxtree.insertAlloc (t : Rdxtree α) (v : α) (avail : Nat) : Err × Rdxtree α × Nat :=
  match allocAt v t.height t.root avail with
  | (.noRoom height, _) =>
    let key := (maxKey height + 1) % 2 ^ 64
    let r := t.insert key v avail
    (r.1, r.2, key)
  | (o, key) =>
    let r := t.finish o
    (r.1, r.2, key % 2 ^ 64)

/-! ## Removal -/

/-- What a removal leaves under a slot. `up` says that `rdxtree_remove_bm_set` goes
on in the node above; `here`, that `rdxtree_cleanup` stopped in the node under the
slot. -/
structure Removal (α τ : Type) where
  value : α
  left : Option τ
  up : Bool
  here : Bool

/-- Back in a node, after its slot `i` was dealt with. In the lowest node the bit is
set anyway, further up only if it is clear. -/
def Node.afterRemove {α β : Type} (n : Node β) (i : Fin 64) (lowest : Bool)
    (r : Removal α β) : Removal α (Node β) :=
  let up := r.up && (lowest || !n.bmIsSet i)
  let n := n.raise i up
  match r.left with
  | some child => ⟨r.value, some (n.insert i child), up, false⟩
  | none =>
    let n := n.remove i
    ⟨r.value, if n.empty then none else some n, up, true⟩

/-- The loop of `rdxtree_remove`. -/
def removeAt (key : Nat) : (h : Nat) → Option (Tree α h) → Option (Removal α (Tree α h))
  | 0, c => c.map fun v => ⟨v, none, true, true⟩
  | _ + 1, none => none
  | h + 1, some n =>
    let i := index key h
    (removeAt key h (Node.entries n i)).map (Node.afterRemove n i (h == 0))

/-- `rdxtree_remove`. -/
def Rdxtree.remove (t : Rdxtree α) (key : Nat) : Option α × Rdxtree α :=
  if maxKey t.height < key then (none, t)
  else
    match removeAt key t.height t.root with
    | none => (none, t)
    | some ⟨v, none, _, _⟩ => (some v, ⟨0, none⟩)
    | some ⟨v, some root, _, here⟩ =>
      (some v, if here then shrink t.height root else ⟨t.height, some root⟩)

end Mach.Kern.Radix
