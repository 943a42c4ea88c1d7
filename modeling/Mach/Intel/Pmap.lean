import Mathlib.Algebra.Group.Nat.Defs
import Mach.Lib.Transition

/-!
# Physical maps

`i386/intel/pmap.c` on one processor and without a hypervisor: the page tables of the maps,
the lists of all mappings of a managed page (`pv_head_table`), and the counts of resident
and wired pages. Addresses and frames are numbers of pages. The tables of a map are those of
its own addresses: user addresses, and for the kernel map the addresses from
`kernel_virtual_start` to `kernel_virtual_end`. The upper levels of a page table are left
out: they only grow, and where one is missing there is no page table either.

A panic ends a call. `pmap_enter` is one pass from `Retry` on: when there is no entry for the
list, the pass ends and the call starts again with what the cache has given; anything can
happen in between.
-/

namespace Mach.Intel.Pmap

open Lib Function

/-- `vm_prot_t`, with its bits. -/
abbrev VmProt := Nat

def VmProt.read : VmProt := 1
def VmProt.write : VmProt := 2
def VmProt.execute : VmProt := 4
def VmProt.all : VmProt := 7

/-- The number of entries of a page table (`NPTES`). -/
def nptes : Nat := 512

/-- `pt_entry_t`. -/
structure Pte where
  frame : Nat
  valid : Bool
  write : Bool
  user : Bool
  wthru : Bool
  ncache : Bool
  referenced : Bool
  modified : Bool
  wired : Bool
deriving DecidableEq

def Pte.zero : Pte := ⟨0, false, false, false, false, false, false, false, false⟩

/-- `struct pv_entry`, for the entries after the first. -/
structure PvEntry where
  pmap : Nat
  va : Nat
deriving DecidableEq

/-- The first `struct pv_entry` of a list, in `pv_head_table`. -/
structure PvHead where
  pmap : Option Nat
  va : Nat
  next : List PvEntry

def PvHead.toList (h : PvHead) : List PvEntry :=
  match h.pmap with
  | none => []
  | some pmap => ⟨pmap, h.va⟩ :: h.next

/-- `struct pmap`. -/
structure Map where
  /-- the page table for the addresses from `512 * i` on -/
  tables : Nat → Option (Nat → Pte)
  residentCount : Int
  wiredCount : Int

/-- `pmap_phys_attributes`. -/
structure Attributes where
  modified : Bool
  referenced : Bool

structure State where
  maps : Nat → Map
  pvHeadTable : Nat → PvHead
  /-- the length of `pv_free_list` -/
  pvFreeList : Nat
  attributes : Nat → Attributes

structure Machine where
  kernelPmap : Nat
  /-- `valid_page`: the page belongs to a segment -/
  validPage : Nat → Bool
  isPhysmem : Nat → Bool
  kernelVirtualStart : Nat
  kernelVirtualEnd : Nat
  /-- `VM_MAX_USER_ADDRESS` -/
  maxUserAddress : Nat

inductive Panic
  /-- `pmap_remove: null pv_list` -/
  | nullPvList
  /-- `pmap-remove: mapping not in pv_list!` -/
  | notInPvList
  /-- `falls in physical memory area!` -/
  | physicalMemoryArea
  /-- `pmap_expand kernel pmap` -/
  | expandKernel
  /-- `pmap_change_wiring: pte missing` -/
  | pteMissing
  /-- an `assert` -/
  | assertion
deriving DecidableEq

namespace State

/-! ## Page tables -/

/-- `pmap_pte`; `none` is `PT_ENTRY_NULL`. -/
def pte (s : State) (m va : Nat) : Option Pte :=
  ((s.maps m).tables (va / nptes)).map fun table => table (va % nptes)

def entry (s : State) (m va : Nat) : Pte := (s.pte m va).getD .zero

def setMap (s : State) (m : Nat) (map : Map) : State := { s with maps := update s.maps m map }

/-- `WRITE_PTE`. -/
def setPte (s : State) (m va : Nat) (e : Pte) : State :=
  s.setMap m { s.maps m with
    tables := update (s.maps m).tables (va / nptes)
      (((s.maps m).tables (va / nptes)).map fun table => update table (va % nptes) e) }

def addResident (s : State) (m : Nat) (n : Int) : State :=
  s.setMap m { s.maps m with residentCount := (s.maps m).residentCount + n }

def addWired (s : State) (m : Nat) (n : Int) : State :=
  s.setMap m { s.maps m with wiredCount := (s.maps m).wiredCount + n }

/-- `pmap_phys_attributes[pai] |= *pte & (PHYS_MODIFIED|PHYS_REFERENCED)`. -/
def collectBits (s : State) (e : Pte) : State :=
  let old := s.attributes e.frame
  let new : Attributes := ⟨old.modified || e.modified, old.referenced || e.referenced⟩
  { s with attributes := update s.attributes e.frame new }

def setPv (s : State) (pai : Nat) (h : PvHead) : State :=
  { s with pvHeadTable := update s.pvHeadTable pai h }

/-- `PV_FREE`, of so many entries. -/
def pvFree (s : State) (n : Nat) : State := { s with pvFreeList := s.pvFreeList + n }

end State

/-! ## `pmap_remove_range` -/

/-- `do … while (cur->va != va || cur->pmap != pmap)`, and the unlinking. -/
def unlink (m va : Nat) : List PvEntry → Option (List PvEntry)
  | [] => none
  | cur :: rest => if cur.va = va ∧ cur.pmap = m then some rest else (unlink m va rest).map (cur :: ·)

def PvHead.remove (h : PvHead) (m va : Nat) : Except Panic (PvHead × Nat) :=
  match h.pmap with
  | none => .error .nullPvList
  | some pmap =>
    if h.va = va ∧ pmap = m then
      match h.next with
      | cur :: rest => .ok (⟨some cur.pmap, cur.va, rest⟩, 1)
      | [] => .ok ({ h with pmap := none }, 0)
    else
      match unlink m va h.next with
      | none => .error .notInPvList
      | some rest => .ok ({ h with next := rest }, 1)

namespace State

variable (M : Machine)

def removeEntry (s : State) (m va : Nat) (e : Pte) : Except Panic State :=
  if M.validPage e.frame then
    let s := (s.collectBits e).setPte m va .zero
    match (s.pvHeadTable e.frame).remove m va with
    | .error p => .error p
    | .ok (h, freed) => .ok ((s.setPv e.frame h).pvFree freed)
  else .ok (s.setPte m va .zero)

/-- The loop of `pmap_remove_range`, with `num_removed` and `num_unwired`. -/
def removeLoop (m : Nat) : Nat → Nat → Nat → Nat → State → Except Panic (Nat × Nat × State)
  | 0, _, removed, unwired, s => .ok (removed, unwired, s)
  | n + 1, va, removed, unwired, s =>
    let e := s.entry m va
    if e = .zero then removeLoop m n (va + 1) removed unwired s
    else if e.valid then
      match s.removeEntry M m va e with
      | .error p => .error p
      | .ok s => removeLoop m n (va + 1) (removed + 1) (if e.wired then unwired + 1 else unwired) s
    else .error .assertion

/-- `pmap_remove_range`, of `n` entries of one page table. -/
def removeRange (s : State) (m va n : Nat) : Except Panic State :=
  if m = M.kernelPmap ∧ (va < M.kernelVirtualStart ∨ va + n > M.kernelVirtualEnd) then
    .error .physicalMemoryArea
  else
    match removeLoop M m n va 0 0 s with
    | .error p => .error p
    | .ok (removed, unwired, s) => .ok ((s.addResident m (-removed)).addWired m (-unwired))

/-- `while (s < e)`: what is done with the part of the range in each page table. -/
def overTables (f : State → Nat → Nat → Except Panic State) (m e : Nat) :
    Nat → Nat → State → Except Panic State
  | 0, _, s => .ok s
  | k + 1, b, s =>
    if b < e then
      let l := min ((b / nptes + 1) * nptes) e
      match (s.maps m).tables (b / nptes) with
      | none => overTables f m e k l s
      | some _ =>
        match f s b (l - b) with
        | .error p => .error p
        | .ok s => overTables f m e k l s
    else .ok s

/-- `pmap_remove`. -/
def remove (s : State) (m b e : Nat) : Except Panic State :=
  overTables (fun s va n => s.removeRange M m va n) m e (e - b) b s

/-! ## `pmap_page_protect` -/

def protectMapping (s : State) (phys : Nat) (remove : Bool) (m va : Nat) : Except Panic (Bool × State) :=
  match s.pte m va with
  | none => .error .assertion
  | some e =>
    if e.valid ∧ e.frame = phys then
      if remove ∨ m = M.kernelPmap then
        let s := if e.wired then s.addWired m (-1) else s
        .ok (false, ((s.collectBits e).setPte m va .zero).addResident m (-1))
      else .ok (true, s.setPte m va { e with write := false })
    else .error .assertion

/-- The loop over the entries after the first: those that stay on the list, and how many
were freed. -/
def protectLoop (phys : Nat) (remove : Bool) : List PvEntry → State → Except Panic (List PvEntry × Nat × State)
  | [], s => .ok ([], 0, s)
  | pv :: rest, s =>
    match s.protectMapping M phys remove pv.pmap pv.va with
    | .error p => .error p
    | .ok (kept, s) =>
      match protectLoop phys remove rest s with
      | .error p => .error p
      | .ok (list, freed, s) => .ok (if kept then (pv :: list, freed, s) else (list, freed + 1, s))

/-- `pmap_page_protect`. -/
def pageProtect (s : State) (phys : Nat) (prot : VmProt) : Except Panic State :=
  if ¬M.validPage phys then .ok s
  else if prot = VmProt.all then .ok s
  else
    let remove := decide (prot ≠ VmProt.read ∧ prot ≠ VmProt.read ||| VmProt.execute)
    let h := s.pvHeadTable phys
    match h.pmap with
    | none => .ok s
    | some pmap =>
      match s.protectMapping M phys remove pmap h.va with
      | .error p => .error p
      | .ok (kept, s) =>
        match protectLoop M phys remove h.next s with
        | .error p => .error p
        | .ok (list, freed, s) =>
          if kept then .ok ((s.setPv phys ⟨some pmap, h.va, list⟩).pvFree freed)
          else
            -- the head was removed: it is fixed up
            match list with
            | [] => .ok ((s.setPv phys ⟨none, h.va, []⟩).pvFree freed)
            | pv :: rest => .ok ((s.setPv phys ⟨some pv.pmap, pv.va, rest⟩).pvFree (freed + 1))

/-! ## `pmap_protect` -/

/-- `while (spte < epte)`. -/
def protectRange (m : Nat) : Nat → Nat → State → State
  | 0, _, s => s
  | n + 1, va, s =>
    let e := s.entry m va
    protectRange m n (va + 1) (if e.valid then s.setPte m va { e with write := false } else s)

/-- `pmap_protect`. -/
def protect (s : State) (m b e : Nat) (prot : VmProt) : Except Panic State :=
  if prot = VmProt.read ∨ prot = VmProt.read ||| VmProt.execute then
    overTables (fun s va n => .ok (protectRange m n va s)) m e (e - b) b s
  else if prot = VmProt.read ||| VmProt.write ∨ prot = VmProt.all then .ok s
  else s.remove M m b e

/-! ## `pmap_enter` -/

/-- `pmap_expand`: there is a page table for the address. -/
def expand (s : State) (m v : Nat) : Except Panic State :=
  match (s.maps m).tables (v / nptes) with
  | some _ => .ok s
  | none =>
    if m = M.kernelPmap then .error .expandKernel
    else
      .ok (s.setMap m { s.maps m with
        tables := update (s.maps m).tables (v / nptes) (some fun _ => .zero) })

def template (m pa : Nat) (prot : VmProt) (wired : Bool) : Pte where
  frame := pa
  valid := true
  write := prot &&& VmProt.write ≠ 0
  user := m ≠ M.kernelPmap
  wthru := !M.isPhysmem pa
  ncache := !M.isPhysmem pa
  referenced := false
  modified := false
  wired := wired

/-- The mapping is entered in the list of the page. The result is `none` when there is no
entry for it; otherwise it says whether `pv_e` is left. -/
def enterPv (s : State) (m v pa : Nat) (pvE : Bool) : Option (Bool × State) :=
  if M.validPage pa then
    let h := s.pvHeadTable pa
    match h.pmap with
    | none => some (pvE, s.setPv pa ⟨some m, v, []⟩)
    | some pmap =>
      let inserted := s.setPv pa ⟨some pmap, h.va, ⟨m, v⟩ :: h.next⟩
      if pvE then some (false, inserted)
      else if 0 < s.pvFreeList then some (false, { inserted with pvFreeList := s.pvFreeList - 1 })
      else none
  else some (pvE, s)

/-- A pass of `pmap_enter` from `Retry` on, with or without an entry `pv_e`; the result says
whether the page was entered. -/
def enter (s : State) (m v pa : Nat) (prot : VmProt) (wired pvE : Bool) : Except Panic (Bool × State) :=
  if m = M.kernelPmap ∧ (v < M.kernelVirtualStart ∨ v ≥ M.kernelVirtualEnd) then
    .error .physicalMemoryArea
  else
    match s.expand M m v with
    | .error p => .error p
    | .ok s =>
      let e := s.entry m v
      if e ≠ .zero ∧ e.frame = pa then
        let s :=
          if wired && !e.wired then s.addWired m 1
          else if !wired && e.wired then s.addWired m (-1)
          else s
        let s := s.setPte m v { template M m pa prot wired with modified := e.modified }
        .ok (true, if pvE then s.pvFree 1 else s)
      else
        match if e ≠ .zero then s.removeRange M m v 1 else .ok s with
        | .error p => .error p
        | .ok s =>
          match s.enterPv M m v pa pvE with
          | none => .ok (false, s)
          | some (pvE, s) =>
            let s := s.addResident m 1
            let s := if wired then s.addWired m 1 else s
            let s := s.setPte m v (template M m pa prot wired)
            .ok (true, if pvE then s.pvFree 1 else s)

/-! ## `pmap_change_wiring` -/

/-- `pmap_change_wiring`. The mapping must already exist in the map. -/
def changeWiring (s : State) (m v : Nat) (wired : Bool) : Except Panic State :=
  match s.pte m v with
  | none => .error .pteMissing
  | some e =>
    if wired && !e.wired then .ok ((s.addWired m 1).setPte m v { e with wired := true })
    else if !wired && e.wired then .ok ((s.addWired m (-1)).setPte m v { e with wired := false })
    else .ok s

/-! ## `pmap_collect` -/

/-- `*pdep++ = 0`. -/
def dropTable (s : State) (m i : Nat) : State :=
  s.setMap m { s.maps m with tables := update (s.maps m).tables i none }

def collectLoop (m : Nat) : Nat → Nat → State → Except Panic State
  | 0, _, s => .ok s
  | n + 1, i, s =>
    match (s.maps m).tables i with
    | none => collectLoop m n (i + 1) s
    | some table =>
      if (List.range nptes).any fun j => (table j).wired then collectLoop m n (i + 1) s
      else
        match s.removeRange M m (i * nptes) nptes with
        | .error p => .error p
        | .ok s => collectLoop m n (i + 1) (s.dropTable m i)

/-- `pmap_collect`: the top level is gone through up to the entry of the last user address. -/
def collect (s : State) (m : Nat) : Except Panic State :=
  if m = M.kernelPmap then .ok s
  else collectLoop M m (M.maxUserAddress / nptes ^ 3 * nptes ^ 2) 0 s

end State

/-! ## The system -/

inductive Action
  | enter (m v pa : Nat) (prot : VmProt) (wired pvE : Bool)
  | remove (m b e : Nat)
  | protect (m b e : Nat) (prot : VmProt)
  | pageProtect (phys : Nat) (prot : VmProt)
  | changeWiring (m v : Nat) (wired : Bool)
  | collect (m : Nat)
  | use (m v : Nat) (modified : Bool)

def exec (M : Machine) (s : State) : Action → Except Panic State
  | .enter m v pa prot wired pvE => (s.enter M m v pa prot wired pvE).map Prod.snd
  | .remove m b e => s.remove M m b e
  | .protect m b e prot => s.protect M m b e prot
  | .pageProtect phys prot => s.pageProtect M phys prot
  | .changeWiring m v wired => s.changeWiring m v wired
  | .collect m => s.collect M m
  | .use m v modified =>
    let e := s.entry m v
    if e.valid then
      .ok (s.setPte m v { e with referenced := true, modified := e.modified || (modified && e.write) })
    else .ok s

structure State.Init (s : State) : Prop where
  empty : ∀ m i table, (s.maps m).tables i = some table → ∀ j, table j = .zero
  counts : ∀ m, (s.maps m).residentCount = 0 ∧ (s.maps m).wiredCount = 0
  lists : ∀ p, (s.pvHeadTable p).pmap = none

def lts (M : Machine) : Lts State Action where
  init := State.Init
  step s a := (exec M s a).toOption

end Mach.Intel.Pmap
