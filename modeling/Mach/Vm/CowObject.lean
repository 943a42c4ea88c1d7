import Mach.Lib.Overlay
import Mach.Lib.Transition
import Mathlib.Data.Finset.Option

/-!
# Copy objects

The asymmetric copy-on-write of `vm/vm_object.c` and `vm/vm_fault.c`, without pagers. A copy
of an object is an empty object that shadows it and is recorded in it. Before a page of the
source is written, its contents are pushed into the copy. A copy itself is never written: it
is mapped through a shadow object of its own (`vm_object_shadow`).

Faults are atomic: no page is busy or absent, and no object has paging in progress. Then the
locks are always had. Offsets are taken in pages or in bytes, it makes no difference; they
never leave the range of the object below, so that their sums do not wrap. An object that
was freed is `none`; numbers of objects are not used again.
-/

namespace Mach.Vm.Cow

open Lib Function

variable {V : Type}

structure Page (V : Type) where
  offset : Nat
  data : V

/-- `struct vm_object`. -/
structure VmObject (V : Type) where
  size : Nat
  refCount : Nat
  shadow : Option Nat
  shadowOffset : Nat
  copy : Option Nat
  internal : Bool
  memq : List (Page V)

/-- `vm_object_allocate`. -/
def VmObject.allocate (size : Nat) : VmObject V where
  size := size
  refCount := 1
  shadow := none
  shadowOffset := 0
  copy := none
  internal := true
  memq := []

/-- `vm_page_lookup`. -/
def lookup (memq : List (Page V)) (offset : Nat) : Option V :=
  (memq.find? fun p => p.offset = offset).map Page.data

/-- All objects; those from `next` on do not exist yet. -/
structure Heap (V : Type) where
  objects : Nat → Option (VmObject V)
  next : Nat

namespace Heap

def set (h : Heap V) (i : Nat) (obj : VmObject V) : Heap V :=
  { h with objects := update h.objects i (some obj) }

def modify (h : Heap V) (i : Nat) (f : VmObject V → VmObject V) : Heap V :=
  match h.objects i with
  | none => h
  | some obj => h.set i (f obj)

/-- `kmem_cache_free`. -/
def remove (h : Heap V) (i : Nat) : Heap V := { h with objects := update h.objects i none }

/-- `vm_page_insert`. -/
def insertPage (h : Heap V) (i offset : Nat) (data : V) : Heap V :=
  h.modify i fun obj => { obj with memq := obj.memq ++ [⟨offset, data⟩] }

/-! ## `vm_object_copy_delayed` and `vm_object_shadow` -/

/-- `vm_object_copy_delayed`. A new object is allocated in any case; when the old copy is
used again it is deallocated at once, which is left out here. -/
def copyDelayed (h : Heap V) (src : Nat) : Option (Nat × Heap V) :=
  match h.objects src with
  | none => none
  | some srcObject =>
    let newCopy := { (VmObject.allocate srcObject.size : VmObject V) with shadow := some src }
    let new := h.next
    match srcObject.copy with
    | none =>
      let h := h.set src { srcObject with refCount := srcObject.refCount + 1, copy := some new }
      some (new, { h.set new newCopy with next := new + 1 })
    | some old =>
      match h.objects old with
      | none => none
      | some oldCopy =>
        if oldCopy.memq.length = 0 then
          some (old, h.set old { oldCopy with refCount := oldCopy.refCount + 1 })
        else
          -- the source loses the reference of the old copy and gets that of the new one
          let h := h.set src { srcObject with refCount := srcObject.refCount - 1 + 1, copy := some new }
          let h := h.set old { oldCopy with shadow := some new }
          some (new, { h.set new { newCopy with refCount := newCopy.refCount + 1 } with next := new + 1 })

/-- `vm_object_shadow`: the reference to the source moves to the new object. -/
def shadow (h : Heap V) (source offset length : Nat) : Nat × Heap V :=
  let result := { (VmObject.allocate length : VmObject V) with shadow := some source, shadowOffset := offset }
  (h.next, { h.set h.next result with next := h.next + 1 })

/-! ## `vm_object_collapse` -/

/-- `while (!queue_empty(&backing_object->memq))`: the pages of the object, those of the
backing object being moved up. -/
def moveUp (backingOffset size : Nat) : List (Page V) → List (Page V) → List (Page V)
  | memq, [] => memq
  | memq, p :: rest =>
    if p.offset < backingOffset ∨ p.offset - backingOffset ≥ size then
      moveUp backingOffset size memq rest
    else if (lookup memq (p.offset - backingOffset)).isSome then moveUp backingOffset size memq rest
    else moveUp backingOffset size (memq ++ [⟨p.offset - backingOffset, p.data⟩]) rest

def stillNeeded (backingOffset size : Nat) (memq : List (Page V)) (p : Page V) : Bool :=
  decide (p.offset ≥ backingOffset) && decide (p.offset - backingOffset ≤ size) &&
    (lookup memq (p.offset - backingOffset)).isNone

def isCopyObject (h : Heap V) (backing : VmObject V) : Bool :=
  match backing.shadow with
  | none => false
  | some i =>
    match h.objects i with
    | none => false
    | some obj => obj.copy.isSome

/-- One turn of the loop of `vm_object_collapse`; `none` where it returns. -/
def collapseOnce (h : Heap V) (i : Nat) : Option (Heap V) :=
  match h.objects i with
  | none => none
  | some obj =>
    match obj.shadow with
    | none => none
    | some b =>
      match h.objects b with
      | none => none
      | some backing =>
        if !backing.internal then none
        else if h.isCopyObject backing then none
        else if backing.refCount = 1 then
          some ((h.set i
            { obj with
              memq := moveUp obj.shadowOffset obj.size obj.memq backing.memq
              shadow := backing.shadow
              shadowOffset := obj.shadowOffset + backing.shadowOffset }).remove b)
        else if backing.memq.any (stillNeeded obj.shadowOffset obj.size obj.memq) then none
        else
          let h := h.set i
            { obj with
              shadow := backing.shadow
              shadowOffset := obj.shadowOffset + backing.shadowOffset }
          let h := h.set b
            { backing with
              copy := if backing.copy = some i then none else backing.copy
              refCount := backing.refCount - 1 }
          -- `vm_object_reference` of the next object in the chain
          match backing.shadow with
          | none => some h
          | some r => some (h.modify r fun obj => { obj with refCount := obj.refCount + 1 })

def collapseLoop (i : Nat) : Nat → Heap V → Heap V
  | 0, h => h
  | k + 1, h =>
    match h.collapseOnce i with
    | none => h
    | some h => collapseLoop i k h

/-- `vm_object_collapse`. Every turn goes down the chain, so that as many turns as there are
objects suffice. -/
def collapse (h : Heap V) (i : Nat) : Heap V := collapseLoop i h.next h

/-! ## `vm_fault_page` -/

def search (h : Heap V) : Nat → Nat → Nat → Option (Nat × V)
  | 0, _, _ => none
  | k + 1, object, offset =>
    match h.objects object with
    | none => none
    | some obj =>
      match lookup obj.memq offset with
      | some data => some (object, data)
      | none =>
        match obj.shadow with
        | none => none
        | some next => search h k next (offset + obj.shadowOffset)

variable [Inhabited V]

/-- What is found at an offset by following the shadow chain; a page that nobody has is
filled with zeros (`default`). -/
def contents (h : Heap V) (object offset : Nat) : V :=
  ((h.search h.next object offset).map Prod.snd).getD default

def readFault (h : Heap V) (first offset : Nat) : Heap V :=
  match h.search h.next first offset with
  | none => h.insertPage first offset default
  | some _ => h

def ownPage (h : Heap V) (first offset : Nat) : Heap V :=
  match h.search h.next first offset with
  | none => h.insertPage first offset default
  | some (object, data) =>
    if object = first then h else (h.insertPage first offset data).collapse first

def pushPage (h : Heap V) (first offset : Nat) : Heap V :=
  match h.objects first with
  | none => h
  | some obj =>
    match obj.copy with
    | none => h
    | some c =>
      match h.objects c with
      | none => h
      | some copyObject =>
        match lookup copyObject.memq (offset - copyObject.shadowOffset) with
        | some _ => h
        | none =>
          h.insertPage c (offset - copyObject.shadowOffset) ((lookup obj.memq offset).getD default)

def store (h : Heap V) (first offset : Nat) (data : V) : Heap V :=
  h.modify first fun obj =>
    { obj with memq := obj.memq.map fun p => if p.offset = offset then { p with data := data } else p }

/-- A write fault through `vm_fault_page`, and the write. -/
def writeFault (h : Heap V) (first offset : Nat) (data : V) : Heap V :=
  ((h.ownPage first offset).pushPage first offset).store first offset data

end Heap

/-! ## The system -/

/-- The objects; how often each is referred to other than by objects; which of them are
never written; and what was returned by `vm_object_copy_delayed`, with the contents of the
source at that moment. -/
structure Sys (V : Type) where
  heap : Heap V
  held : Nat → Nat
  readOnly : Nat → Bool
  snapshots : List (Nat × (Nat → V))

inductive Action (V : Type)
  | copyDelayed (src : Nat)
  | write (object offset : Nat) (data : V)
  | shortage (object offset : Nat)
  | read (object offset : Nat)
  | shadow (source offset length : Nat)
  | collapse (object : Nat)

def step [Inhabited V] (s : Sys V) : Action V → Option (Sys V)
  | .copyDelayed src =>
    if 0 < s.held src then
      (s.heap.copyDelayed src).map fun (i, heap) =>
        { heap := heap
          held := update s.held i (s.held i + 1)
          readOnly := update s.readOnly i true
          snapshots := (i, s.heap.contents src) :: s.snapshots }
    else none
  | .write object offset data =>
    if 0 < s.held object ∧ s.readOnly object = false then
      some { s with heap := s.heap.writeFault object offset data }
    else none
  | .shortage object offset =>
    if 0 < s.held object ∧ s.readOnly object = false then
      some { s with heap := s.heap.ownPage object offset }
    else none
  | .read object offset =>
    if 0 < s.held object then some { s with heap := s.heap.readFault object offset } else none
  | .shadow source offset length =>
    match s.heap.objects source with
    | none => none
    | some obj =>
      if 0 < s.held source ∧ s.readOnly source = true ∧ offset + length ≤ obj.size then
        let (i, heap) := s.heap.shadow source offset length
        some
          { s with
            heap := heap
            held := update (update s.held source (s.held source - 1)) i 1
            readOnly := update s.readOnly i false }
      else none
  | .collapse object => some { s with heap := s.heap.collapse object }

end Mach.Vm.Cow
