import Mach.Kern.RdxtreeIter
import Mach.Lib.LinkedList
import Mach.Lib.Transition

/-!
# The entries of a space

How a space finds room for port names: `ipc/ipc_entry.c` and the inline functions of
`ipc/ipc_space.h`. Entries are kept in the radix tree `is_map`, under their names.
Some entries that are not in use stay there, on a free list that is threaded through
the entries themselves: the link shares its memory with `ie_request`.

The steps are the calls that allocate and deallocate entries, and the stores by which
the rest of the kernel gives an entry in use its type, object and request. The
state also records what no code looks at: which entries are allocated at all, and
which of them are in use, that is obtained and not deallocated since.
-/

namespace Mach.Ipc.Entries

open Kern.Radix Lib.LinkedList Function

/-! ## Entries -/

/-- `struct ipc_entry`. `index` is the union of `ie_request` and `ie_next_free`, as the
word it is on 64 bits. -/
structure Entry where
  name : Nat
  bits : Nat
  object : Nat
  index : Nat
  deriving DecidableEq

namespace Entry

/-- `IE_BITS_TYPE`. -/
def type (e : Entry) : Nat := e.bits / 2 ^ 16 % 2 ^ 5

def request (e : Entry) : Nat := e.index % 2 ^ 32

def setRequest (e : Entry) (request : Nat) : Entry :=
  { e with index := e.index / 2 ^ 32 * 2 ^ 32 + request % 2 ^ 32 }

def nextFree (e : Entry) : Nat := e.index

/-- `ie_bits = 0`, `ie_object = IO_NULL`, `ie_request = 0`. -/
def blank (e : Entry) (name : Nat) : Entry :=
  { e.setRequest 0 with name := name, bits := 0, object := 0 }

end Entry

/-- The parts of `struct ipc_space` that hold entries. Pointers to entries are
addresses, `IE_NULL` is 0. -/
structure Space where
  isActive : Bool
  isMap : Rdxtree Nat
  isSize : Nat
  isFreeList : Nat
  isFreeListSize : Nat
  heap : Nat → Entry

/-- `IS_FREE_LIST_SIZE_LIMIT`. -/
def freeListSizeLimit : Nat := 64

/-- The address of the static `zero_entry`. -/
def zeroEntry : Nat := 4

/-- `MACH_PORT_NAME_VALID`. -/
def nameValid (name : Nat) : Prop := name ≠ 0 ∧ name ≠ 2 ^ 32 - 1

instance (name : Nat) : Decidable (nameValid name) := inferInstanceAs (Decidable (_ ∧ _))

/-- `ipc_space_create`. `rdxtree_insert` at key 0 needs no node. -/
def ipcSpaceCreate (heap : Nat → Entry) : Space where
  isActive := true
  isMap := (Rdxtree.init.insert 0 zeroEntry 0).2
  isSize := 1
  isFreeList := 0
  isFreeListSize := 0
  heap := heap

inductive KernReturn
  | success | invalidTask | resourceShortage | invalidArgument
  | fault
  deriving DecidableEq

def KernReturn.ofErr : Err → KernReturn
  | .success => .success
  | .busy => .invalidArgument
  | .nomem => .resourceShortage

/-! ## The functions -/

/-- `ipc_entry_lookup`. -/
def ipcEntryLookup (s : Space) (name : Nat) : Option Nat :=
  (s.isMap.lookup name).filter fun e => (s.heap e).type ≠ 0

/-- `ipc_entry_get`: the space, the name and the entry, unless the free list is empty.
There are no generation numbers (`IE_BITS_GEN_ONE` is 0). -/
def ipcEntryGet (s : Space) : Option (Space × Nat × Nat) :=
  if s.isFreeList = 0 then none
  else
    let e := s.isFreeList
    some ({ s with
        isFreeList := (s.heap e).nextFree
        isFreeListSize := s.isFreeListSize - 1
        heap := update s.heap e ((s.heap e).setRequest 0)
        isSize := s.isSize + 1 }, (s.heap e).name, e)

/-- What `ipc_entry_alloc` and `ipc_entry_alloc_name` return. -/
structure Alloc where
  kr : KernReturn
  space : Space
  name : Nat
  entry : Nat

/-- `ipc_entry_alloc`. `fresh` is what `ie_alloc` returns, `avail` the number of nodes
the radix tree can still create. -/
def ipcEntryAlloc (s : Space) (fresh avail : Nat) : Alloc :=
  if ¬ s.isActive then ⟨.invalidTask, s, 0, 0⟩
  else
    match ipcEntryGet s with
    | some (s, name, e) => ⟨.success, s, name, e⟩
    | none =>
      if fresh = 0 then ⟨.resourceShortage, s, 0, 0⟩
      else
        match s.isMap.insertAlloc fresh avail with
        | (.success, map, key) =>
          let name := key % 2 ^ 32
          ⟨.success, { s with
            isMap := map
            isSize := s.isSize + 1
            heap := update s.heap fresh ((s.heap fresh).blank name) }, name, fresh⟩
        | (err, map, _) => ⟨.ofErr err, { s with isMap := map }, 0, 0⟩

/-- The entry is ripped out of the free list: `*prevp = entry->ie_next_free`. -/
def unlinkFree (s : Space) (prev : Option Nat) (e : Nat) : Space :=
  let next := (s.heap e).nextFree
  match prev with
  | none => { s with isFreeList := next }
  | some p => { s with heap := update s.heap p { s.heap p with index := next } }

def takeFree (s : Space) (prev : Option Nat) (e : Nat) : Space :=
  let s := unlinkFree s prev e
  { s with
    isFreeListSize := s.isFreeListSize - 1
    heap := update s.heap e ({ s.heap e with bits := 0 }.setRequest 0)
    isSize := s.isSize + 1 }

/-- `ipc_entry_alloc_name`. -/
def ipcEntryAllocName (s : Space) (name fresh avail : Nat) : Alloc :=
  if ¬ s.isActive then ⟨.invalidTask, s, 0, 0⟩
  else
    match s.isMap.lookup name with
    | none =>
      if fresh = 0 then ⟨.resourceShortage, s, 0, 0⟩
      else
        match s.isMap.insert name fresh avail with
        | (.success, map) =>
          ⟨.success, { s with
            isMap := map
            isSize := s.isSize + 1
            heap := update s.heap fresh ((s.heap fresh).blank name) }, name, fresh⟩
        | (err, map) => ⟨.ofErr err, { s with isMap := map }, 0, 0⟩
    | some e =>
      if (s.heap e).type ≠ 0 then ⟨.success, s, name, e⟩
      else
        match findPrev 0 (fun e => (s.heap e).nextFree) e s.isFreeListSize none s.isFreeList with
        | none => ⟨.fault, s, 0, 0⟩
        | some prev => ⟨.success, takeFree s prev e, name, e⟩

/-- `ipc_entry_dealloc`. -/
def ipcEntryDealloc (s : Space) (name e : Nat) : Space :=
  if s.isFreeListSize < freeListSizeLimit then
    { s with
      isFreeListSize := s.isFreeListSize + 1
      heap := update s.heap e { s.heap e with bits := 0, index := s.isFreeList }
      isFreeList := e
      isSize := s.isSize - 1 }
  else { s with isMap := (s.isMap.remove name).2, isSize := s.isSize - 1 }

/-- The names `mach_port_names` writes, in the order in which it writes them. -/
def machPortNames (s : Space) : List Nat :=
  (s.isMap.visit.filter fun p => (s.heap p.2).type ≠ 0).map fun p => (s.heap p.2).name

/-! ## Runs -/

structure State where
  space : Space
  /-- addresses given out by `ie_alloc` and not freed -/
  allocated : Finset Nat
  inUse : Finset Nat

inductive Action
  | alloc (fresh avail : Nat)
  | allocName (name fresh avail : Nat)
  | get
  | dealloc (entry : Nat)
  | store (entry bits object request : Nat)
  deriving DecidableEq

def State.pending (s : State) (e : Nat) : Prop := e ∈ s.inUse ∧ (s.space.heap e).type = 0

instance (s : State) (e : Nat) : Decidable (s.pending e) := inferInstanceAs (Decidable (_ ∧ _))

def State.obtain (s : State) (a : Alloc) : State :=
  match a.kr with
  | .success => ⟨a.space, insert a.entry s.allocated, insert a.entry s.inUse⟩
  | _ => { s with space := a.space }

/-- The callers' part of the protocol: the allocator returns a free address or null,
`ipc_entry_alloc_name` is asked for a valid 32-bit name and not for one that was
obtained and has no type yet, only entries in use are stored to and deallocated, and
when they are deallocated they hold no object and no request. -/
def step (s : State) : Action → Option State
  | .alloc fresh avail =>
    if fresh ∈ s.allocated ∨ fresh = zeroEntry then none
    else some (s.obtain (ipcEntryAlloc s.space fresh avail))
  | .allocName name fresh avail =>
    if fresh ∈ s.allocated ∨ fresh = zeroEntry ∨ ¬ nameValid name ∨ 2 ^ 32 ≤ name ∨
        ∃ e ∈ s.space.isMap.lookup name, s.pending e then none
    else some (s.obtain (ipcEntryAllocName s.space name fresh avail))
  | .get =>
    match ipcEntryGet s.space with
    | none => some s
    | some (space, name, e) => some (s.obtain ⟨.success, space, name, e⟩)
  | .dealloc e =>
    if e ∉ s.inUse ∨ (s.space.heap e).object ≠ 0 ∨ (s.space.heap e).request ≠ 0 then none
    else
      let freed := ¬ s.space.isFreeListSize < freeListSizeLimit
      some ⟨ipcEntryDealloc s.space (s.space.heap e).name e,
        if freed then s.allocated.erase e else s.allocated, s.inUse.erase e⟩
  | .store e bits object request =>
    if e ∉ s.inUse then none
    else some { s with space := { s.space with
      heap := update s.space.heap e
        ({ s.space.heap e with bits := bits, object := object }.setRequest request) } }

def init (s : State) : Prop :=
  ∃ heap, (heap zeroEntry).bits = 0 ∧ s = ⟨ipcSpaceCreate heap, ∅, ∅⟩

def lts : Lib.Lts State Action := ⟨init, step⟩

end Mach.Ipc.Entries
