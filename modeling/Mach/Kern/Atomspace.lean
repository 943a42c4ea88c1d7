import Mathlib.Algebra.GroupWithZero.Nat
import Mach.Lib.Transition
import Mach.Lib.Index

/-!
# The atom space

`kern/atomspace.c`: a store of at most 1024 atoms. A node is an entity with a name, a link
relates the atoms of its outgoing set, which it names by their handles.

`atoms` are the slots in use, the first `atom_count` of the array; a removed atom keeps its
slot until that is used again. The hash table and the type index hold slots, as their queues
go through the atoms themselves. What an atom carries besides (truth value, attention,
embedding, kernel object) no function here reads.
-/

namespace Mach.Kern.Atomspace

open Mach.Lib

/-- `atom_type_t`. -/
inductive AtomType
  | node
  | conceptNode
  | taskNode
  | threadNode
  | portNode
  | processorNode
  | memoryNode
  | deviceNode
  | networkNode
  | link
  | inheritanceLink
  | similarityLink
  | executionLink
  | memberLink
  | ipcLink
  | dependsLink
  | affinityLink
  | temporalLink
deriving DecidableEq

def AtomType.value : AtomType → Nat
  | .node => 0
  | .conceptNode => 1
  | .taskNode => 2
  | .threadNode => 3
  | .portNode => 4
  | .processorNode => 5
  | .memoryNode => 6
  | .deviceNode => 7
  | .networkNode => 8
  | .link => 64
  | .inheritanceLink => 65
  | .similarityLink => 66
  | .executionLink => 67
  | .memberLink => 68
  | .ipcLink => 69
  | .dependsLink => 70
  | .affinityLink => 71
  | .temporalLink => 72

/-- `ATOM_IS_NODE`. -/
def AtomType.isNode (t : AtomType) : Bool := t.value < 64

/-- `ATOM_IS_LINK`. -/
def AtomType.isLink (t : AtomType) : Bool := 64 ≤ t.value

/-! ## Names -/

/-- A string of C: characters up to the first null. A `char` is signed. -/
structure CString where
  chars : List Int8
  nonzero : ∀ c ∈ chars, c ≠ 0
deriving DecidableEq

def CString.length (s : CString) : Nat := s.chars.length

/-- `ATOM_MAX_NAME_LEN`. -/
def maxNameLen : Nat := 32

/-- What `strncpy` leaves of a name in an array that ends in a null. -/
def CString.strncpy (s : CString) (n : Nat) : CString :=
  ⟨s.chars.take n, fun c hc => s.nonzero c (List.mem_of_mem_take hc)⟩

/-! ## Hashes -/

/-- `ATOM_HASH_BUCKETS`. -/
def hashBuckets : UInt32 := 256

def atomHashName (name : CString) (type : AtomType) : Nat :=
  let hash : UInt32 :=
    name.chars.foldl (fun hash c => ((hash <<< 5) + hash) + c.toInt32.toUInt32) 5381
  ((hash ^^^ (UInt32.ofNat type.value <<< 16)) % hashBuckets).toNat

def atomHashLink (outgoing : List Nat) (type : AtomType) : Nat :=
  let hash := outgoing.foldl (fun hash h => hash * 31 + UInt32.ofNat h) (UInt32.ofNat type.value)
  (hash % hashBuckets).toNat

/-! ## The store -/

/-- `ATOM_HANDLE_INVALID`; handles are numbers of 32 bits. -/
def handleInvalid : Nat := 0

/-- The atom's `flags`, as far as they are read here. -/
structure Flags where
  valid : Bool
  removed : Bool
deriving DecidableEq

structure Atom where
  handle : Nat
  type : AtomType
  hash : Nat
  name : CString
  /-- `outgoing`, up to `arity`. -/
  outgoing : List Nat
  flags : Flags
deriving DecidableEq

structure Space where
  atoms : List Atom
  nextHandle : Nat
  hashTable : Nat → List Nat
  typeIndex : Nat → List Nat
  nodeCount : Nat
  linkCount : Nat

/-- `ATOMSPACE_MAX_ATOMS`. -/
def maxAtoms : Nat := 1024

/-- `ATOM_MAX_OUTGOING`. -/
def maxOutgoing : Nat := 8

def atomspaceCreate : Space where
  atoms := []
  nextHandle := 1
  hashTable := fun _ => []
  typeIndex := fun _ => []
  nodeCount := 0
  linkCount := 0

def atomspaceAllocAtom (s : Space) : Option Nat :=
  match s.atoms.findIdx? (·.flags.removed) with
  | some i => some i
  | none => if maxAtoms ≤ s.atoms.length then none else some s.atoms.length

/-- Whether the slot `i` holds an atom that `p` accepts. -/
def Space.holds (s : Space) (p : Atom → Bool) (i : Nat) : Bool := s.atoms[i]?.any p

def Atom.isNamed (type : AtomType) (name : CString) (a : Atom) : Bool :=
  a.flags.valid && a.type = type && a.name = name

def atomspaceFindNode (s : Space) (type : AtomType) (name : CString) : Nat :=
  match (s.hashTable (atomHashName name type)).find? (s.holds (Atom.isNamed type name)) with
  | none => handleInvalid
  | some i => (s.atoms[i]?.map Atom.handle).getD handleInvalid

def Atom.answers (handle : Nat) (a : Atom) : Bool := a.handle = handle && a.flags.valid

/-- `atomspace_get_atom`: the slot of the first valid atom with the handle. -/
def atomspaceGetAtom (s : Space) (handle : Nat) : Option Nat :=
  if handle = handleInvalid then none else s.atoms.findIdx? (Atom.answers handle)

def put (atoms : List Atom) (i : Nat) (a : Atom) : List Atom :=
  if i < atoms.length then atoms.set i a else atoms ++ [a]

def Space.file (s : Space) (i : Nat) (a : Atom) : Space :=
  { s with
    atoms := put s.atoms i a
    nextHandle := (s.nextHandle + 1) % 2 ^ 32
    hashTable := Index.enter s.hashTable a.hash i
    typeIndex := if a.type.value < 128 then Index.enter s.typeIndex a.type.value i
      else s.typeIndex }

def newNode (s : Space) (type : AtomType) (name : CString) : Atom where
  handle := s.nextHandle
  type := type
  hash := atomHashName name type
  name := name.strncpy (maxNameLen - 1)
  outgoing := []
  flags := ⟨true, false⟩

def newLink (s : Space) (type : AtomType) (outgoing : List Nat) : Atom where
  handle := s.nextHandle
  type := type
  hash := atomHashLink outgoing type
  name := ⟨[], fun _ h => absurd h List.not_mem_nil⟩
  outgoing := outgoing
  flags := ⟨true, false⟩

def atomspaceAddNode (s : Space) (type : AtomType) (name : Option CString) : Nat × Space :=
  match name with
  | none => (handleInvalid, s)
  | some name =>
    if !type.isNode then (handleInvalid, s)
    else
      let existing := atomspaceFindNode s type name
      if existing ≠ handleInvalid then (existing, s)
      else
        match atomspaceAllocAtom s with
        | none => (handleInvalid, s)
        | some i =>
          (s.nextHandle,
            { s.file i (newNode s type name) with nodeCount := s.nodeCount + 1 })

def atomspaceAddLink (s : Space) (type : AtomType) (outgoing : Option (Nat → Nat))
    (arity : Nat) : Nat × Space :=
  if !type.isLink || maxOutgoing < arity then (handleInvalid, s)
  else if 0 < arity && outgoing.isNone then (handleInvalid, s)
  else
    let out := (List.range arity).map (outgoing.getD fun _ => 0)
    if !out.all (fun h => (atomspaceGetAtom s h).isSome) then (handleInvalid, s)
    else
      match atomspaceAllocAtom s with
      | none => (handleInvalid, s)
      | some i =>
        (s.nextHandle, { s.file i (newLink s type out) with linkCount := s.linkCount + 1 })

inductive KernReturn
  | success
  | invalidName
deriving DecidableEq

def Atom.remove (a : Atom) : Atom := { a with flags := ⟨false, true⟩ }

def atomspaceRemoveAtom (s : Space) (handle : Nat) : KernReturn × Space :=
  match atomspaceGetAtom s handle with
  | none => (.invalidName, s)
  | some i =>
    match s.atoms[i]? with
    | none => (.invalidName, s)
    | some a =>
      (.success,
        { s with
          atoms := s.atoms.set i a.remove
          hashTable := Index.remove s.hashTable a.hash i
          typeIndex := if a.type.value < 128 then Index.remove s.typeIndex a.type.value i
            else s.typeIndex
          nodeCount := if a.type.isNode then s.nodeCount - 1 else s.nodeCount
          linkCount := if a.type.isNode then s.linkCount else s.linkCount - 1 })

/-! ## Runs -/

inductive Call
  | addNode (type : AtomType) (name : Option CString)
  | addLink (type : AtomType) (outgoing : Option (Nat → Nat)) (arity : Nat)
  | removeAtom (handle : Nat)

def step (s : Space) : Call → Option Space
  | .addNode type name => some (atomspaceAddNode s type name).2
  | .addLink type outgoing arity => some (atomspaceAddLink s type outgoing arity).2
  | .removeAtom handle => some (atomspaceRemoveAtom s handle).2

def system : Lts Space Call where
  init := fun s => s = atomspaceCreate
  step := step

/-! ## Integrity -/

/-- The slot `i` holds the valid atom `a`. -/
def Space.At (s : Space) (i : Nat) (a : Atom) : Prop := s.atoms[i]? = some a ∧ a.flags.valid = true

def Space.key (s : Space) (f : Atom → Nat) (i : Nat) : Option Nat :=
  s.atoms[i]?.bind fun a => if a.flags.valid then some (f a) else none

def MakesNode (s : Space) (type : AtomType) (name : CString) : Prop :=
  type.isNode = true ∧ atomspaceFindNode s type name = handleInvalid ∧
    (atomspaceAllocAtom s).isSome

def MakesLink (s : Space) (type : AtomType) (outgoing : Option (Nat → Nat)) (arity : Nat) :
    Prop :=
  type.isLink = true ∧ arity ≤ maxOutgoing ∧ (0 < arity → outgoing.isSome) ∧
    (∀ i < arity, (atomspaceGetAtom s (outgoing.getD (fun _ => 0) i)).isSome) ∧
    (atomspaceAllocAtom s).isSome

/-- A call that the atom space is up to. A new node has a name that fits, a new atom finds a
handle that has not been given away, and what is removed is in no outgoing set. -/
def Sound (s : Space) : Call → Prop
  | .addNode type name => ∀ n, name = some n → MakesNode s type n →
      n.length < maxNameLen ∧ s.nextHandle ≠ handleInvalid
  | .addLink type outgoing arity => MakesLink s type outgoing arity →
      s.nextHandle ≠ handleInvalid
  | .removeAtom handle => ∀ i a, s.At i a → handle ∉ a.outgoing

structure Integrity (s : Space) : Prop where
  handles : ∀ i j a b, s.At i a → s.At j b → a.handle = b.handle → i = j
  names : ∀ i j a b, s.At i a → s.At j b → a.type.isNode = true → a.type = b.type →
    a.name = b.name → i = j
  again : ∀ type name, Sound s (.addNode type name) →
    atomspaceAddNode (atomspaceAddNode s type name).2 type name = atomspaceAddNode s type name
  hashTable : Index.Files s.hashTable (s.key Atom.hash)
  typeIndex : Index.Files s.typeIndex (s.key (·.type.value))
  buckets : ∀ i a, s.At i a → a.hash < 256 ∧ a.type.value < 128
  nodeCount : s.nodeCount = s.atoms.countP fun a => a.flags.valid && a.type.isNode
  linkCount : s.linkCount = s.atoms.countP fun a => a.flags.valid && a.type.isLink
  outgoing : ∀ i a, s.At i a → a.type.isLink = true → ∀ h ∈ a.outgoing,
    (atomspaceGetAtom s h).isSome

end Mach.Kern.Atomspace
