import Mach.Intel.Pmap

/-!
# Modified and referenced pages

`phys_attribute_clear` and `phys_attribute_test` of `i386/intel/pmap.c`. Whether a page was
modified or referenced is recorded in the entries of all its mappings, where the processor
sets the bits, and in `pmap_phys_attributes`, where the bits of removed mappings are kept.
-/

namespace Mach.Intel.Pmap

open Lib

/-- `PHYS_MODIFIED` and `PHYS_REFERENCED`. -/
inductive Attr
  | modified
  | referenced
deriving DecidableEq

def Pte.attr (e : Pte) : Attr → Bool
  | .modified => e.modified
  | .referenced => e.referenced

/-- `*pte &= ~bits`. -/
def Pte.clear (e : Pte) : Attr → Pte
  | .modified => { e with modified := false }
  | .referenced => { e with referenced := false }

def Attributes.attr (x : Attributes) : Attr → Bool
  | .modified => x.modified
  | .referenced => x.referenced

def Attributes.clear (x : Attributes) : Attr → Attributes
  | .modified => { x with modified := false }
  | .referenced => { x with referenced := false }

namespace State

variable (M : Machine)

def mapping (s : State) (phys m va : Nat) : Except Panic Pte :=
  match s.pte m va with
  | none => .error .assertion
  | some e => if e.valid ∧ e.frame = phys then .ok e else .error .assertion

/-- `for (pv_e = pv_h; …)` of `phys_attribute_clear`. -/
def clearLoop (phys : Nat) (bits : Attr) : List PvEntry → State → Except Panic State
  | [], s => .ok s
  | pv :: rest, s =>
    match s.mapping phys pv.pmap pv.va with
    | .error p => .error p
    | .ok e => clearLoop phys bits rest (s.setPte pv.pmap pv.va (e.clear bits))

/-- `phys_attribute_clear`. -/
def physAttributeClear (s : State) (phys : Nat) (bits : Attr) : Except Panic State :=
  if ¬M.validPage phys then .ok s
  else
    match clearLoop phys bits (s.pvHeadTable phys).toList s with
    | .error p => .error p
    | .ok s =>
      .ok { s with attributes := Function.update s.attributes phys ((s.attributes phys).clear bits) }

/-- `for (pv_e = pv_h; …)` of `phys_attribute_test`. -/
def testLoop (s : State) (phys : Nat) (bits : Attr) : List PvEntry → Except Panic Bool
  | [] => .ok false
  | pv :: rest =>
    match s.mapping phys pv.pmap pv.va with
    | .error p => .error p
    | .ok e => if e.attr bits then .ok true else testLoop s phys bits rest

/-- `phys_attribute_test`. -/
def physAttributeTest (s : State) (phys : Nat) (bits : Attr) : Except Panic Bool :=
  if ¬M.validPage phys then .ok false
  else if (s.attributes phys).attr bits then .ok true
  else testLoop s phys bits (s.pvHeadTable phys).toList

/-- `pmap_clear_modify`. -/
def clearModify (s : State) (phys : Nat) : Except Panic State := s.physAttributeClear M phys .modified

/-- `pmap_clear_reference`. -/
def clearReference (s : State) (phys : Nat) : Except Panic State := s.physAttributeClear M phys .referenced

/-- `pmap_is_modified`. -/
def isModified (s : State) (phys : Nat) : Except Panic Bool := s.physAttributeTest M phys .modified

/-- `pmap_is_referenced`. -/
def isReferenced (s : State) (phys : Nat) : Except Panic Bool := s.physAttributeTest M phys .referenced

end State

/-! ## The system with its memory accesses -/

/-- A pmap, and what the processor has done to each page since the attribute was last
cleared. -/
structure Watched where
  pmap : State
  since : Attr → Nat → Bool

inductive WatchedAction
  | call (a : Action)
  | clearModify (phys : Nat)
  | clearReference (phys : Nat)

def Attr.ofUse (wrote : Bool) : Attr → Bool
  | .modified => wrote
  | .referenced => true

def observe (s : State) (since : Attr → Nat → Bool) : Action → Attr → Nat → Bool
  | .use m v modified => fun a p =>
    since a p || ((s.entry m v).valid && (s.entry m v).frame == p &&
      a.ofUse (modified && (s.entry m v).write))
  | _ => since

def forget (since : Attr → Nat → Bool) (bits : Attr) (phys : Nat) : Attr → Nat → Bool :=
  fun a p => since a p && !(a == bits && p == phys)

def watchedStep (M : Machine) (w : Watched) : WatchedAction → Except Panic Watched
  | .call a => (exec M w.pmap a).map fun s => ⟨s, observe w.pmap w.since a⟩
  | .clearModify phys =>
    (w.pmap.clearModify M phys).map fun s => ⟨s, forget w.since .modified phys⟩
  | .clearReference phys =>
    (w.pmap.clearReference M phys).map fun s => ⟨s, forget w.since .referenced phys⟩

def watched (M : Machine) : Lts Watched WatchedAction where
  init w := w.pmap.Init ∧ ∀ a p, w.since a p = false
  step w a := (watchedStep M w a).toOption

end Mach.Intel.Pmap
