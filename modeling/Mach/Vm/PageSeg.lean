import Mach.Lib.Buddy
import Mach.Lib.Transition

/-!
# The physical page allocator

The buddy allocator of one segment of `vm/vm_page.c`, with its pools of single pages, one
for each processor. A page is its physical page number: `start` and `end` of a segment and
all addresses here are page aligned, so that `vm_page_ptoa` and `vm_page_atop` only shift
them, and `&seg->pages[i]` is the page `start + i`.

A segment starts with all of its pages in use; `vm_page_setup` and `vm_page_manage` release
them one by one. The pages that are in use are not recorded in the source; `Sys` does so.
-/

namespace Mach.Vm.PageSeg

open Lib Lib.Buddy Function

/-- `VM_PAGE_NR_FREE_LISTS`. -/
def nrFreeLists : Nat := 11

/-- `VM_PAGE_ORDER_UNLISTED`. -/
def orderUnlisted : Nat := nrFreeLists + 1

/-- `VM_PT_FREE`, …. -/
inductive PageType
  | free | reserved | table | kernel
  deriving DecidableEq

/-- `struct vm_page_free_list`. -/
structure FreeList where
  size : Nat
  blocks : List Nat

/-- `struct vm_page_cpu_pool`. -/
structure CpuPool where
  size : Nat
  transferSize : Nat
  nrPages : Nat
  pages : List Nat

/-- `struct vm_page_seg`, with the `order` and `type` of its pages and the flag
`vm_page_alloc_paused`; `n` is the number of processors. -/
structure Seg (n : Nat) where
  cpuPools : Fin n → CpuPool
  start : Nat
  stop : Nat
  order : Nat → Nat
  type : Nat → PageType
  freeLists : Nat → FreeList
  nrFreePages : Nat
  minFreePages : Nat
  lowFreePages : Nat
  allocPaused : Bool

variable {n : Nat}

namespace Seg

/-! ## Free lists -/

/-- `vm_page_free_list_insert`, and the order of the page. -/
def insertBlock (s : Seg n) (i page : Nat) : Seg n :=
  { s with
    freeLists := update s.freeLists i
      ⟨(s.freeLists i).size + 1, page :: (s.freeLists i).blocks⟩
    order := update s.order page i }

/-- `vm_page_free_list_remove`, and the order of the page. -/
def removeBlock (s : Seg n) (i page : Nat) : Seg n :=
  { s with
    freeLists := update s.freeLists i
      ⟨(s.freeLists i).size - 1, (s.freeLists i).blocks.erase page⟩
    order := update s.order page orderUnlisted }

/-! ## `vm_page_seg_alloc_from_buddy` -/

/-- The first list from `i` on that is not empty, among `m` lists. -/
def firstList (s : Seg n) : Nat → Nat → Option Nat
  | 0, _ => none
  | m + 1, i => if (s.freeLists i).size ≠ 0 then some i else firstList s m (i + 1)

/-- `while (i > order)`: the upper halves go back. -/
def splitLoop (page order : Nat) : Nat → Seg n → Seg n
  | 0, s => s
  | i + 1, s => if i + 1 > order then splitLoop page order i (s.insertBlock i (page + 2 ^ i)) else s

/-- `privileged`: there is no current thread, or it has `vm_privilege`. -/
def allocFromBuddy (s : Seg n) (order : Nat) (privileged : Bool) : Option Nat × Seg n :=
  if s.allocPaused && !privileged then (none, s)
  else if decide (s.nrFreePages ≤ s.lowFreePages) && decide (s.nrFreePages ≤ s.minFreePages) &&
      !privileged then (none, { s with allocPaused := true })
  else
    match s.firstList (nrFreeLists - order) order with
    | none => (none, s)
    | some i =>
      match (s.freeLists i).blocks with
      | [] => (none, s)
      | page :: _ =>
        let s := splitLoop page order i (s.removeBlock i page)
        let nrFreePages := s.nrFreePages - 2 ^ order
        (some page,
          { s with
            nrFreePages := nrFreePages
            allocPaused := if nrFreePages < s.minFreePages then true else s.allocPaused })

/-! ## `vm_page_seg_free_to_buddy` -/

/-- `while (order < (VM_PAGE_NR_FREE_LISTS - 1))`, with a bound on the turns. -/
def mergeLoop : Nat → Nat → Nat → Seg n → Nat × Nat × Seg n
  | 0, order, pa, s => (order, pa, s)
  | m + 1, order, pa, s =>
    if order < nrFreeLists - 1 then
      let buddyPa := buddy pa order
      if buddyPa < s.start ∨ s.stop ≤ buddyPa then (order, pa, s)
      else if s.order buddyPa ≠ order then (order, pa, s)
      else mergeLoop m (order + 1) (around pa (order + 1)) (s.removeBlock order buddyPa)
    else (order, pa, s)

def freeToBuddy (s : Seg n) (page order : Nat) : Seg n :=
  let (order', page', s) := mergeLoop nrFreeLists order page s
  let s := s.insertBlock order' page'
  { s with nrFreePages := s.nrFreePages + 2 ^ order }

/-! ## CPU pools -/

def setPool (s : Seg n) (cpu : Fin n) (pool : CpuPool) : Seg n :=
  { s with cpuPools := update s.cpuPools cpu pool }

/-- `vm_page_cpu_pool_push`. -/
def poolPush (s : Seg n) (cpu : Fin n) (page : Nat) : Seg n :=
  let pool := s.cpuPools cpu
  s.setPool cpu { pool with nrPages := pool.nrPages + 1, pages := page :: pool.pages }

/-- `vm_page_cpu_pool_pop`. -/
def poolPop (s : Seg n) (cpu : Fin n) : Option Nat × Seg n :=
  let pool := s.cpuPools cpu
  match pool.pages with
  | [] => (none, s)
  | page :: pages => (some page, s.setPool cpu { pool with nrPages := pool.nrPages - 1, pages := pages })

/-- `vm_page_cpu_pool_fill`: how many of the pages could be had. -/
def poolFill (cpu : Fin n) (privileged : Bool) : Nat → Seg n → Nat × Seg n
  | 0, s => (0, s)
  | m + 1, s =>
    match s.allocFromBuddy 0 privileged with
    | (none, s) => (0, s)
    | (some page, s) =>
      let (i, s) := poolFill cpu privileged m (s.poolPush cpu page)
      (i + 1, s)

/-- `vm_page_cpu_pool_drain`. -/
def poolDrain (cpu : Fin n) : Nat → Seg n → Seg n
  | 0, s => s
  | m + 1, s =>
    match s.poolPop cpu with
    | (none, s) => s
    | (some page, s) => poolDrain cpu m (s.freeToBuddy page 0)

/-! ## Allocating and freeing -/

/-- `vm_page_set_type`. -/
def setType (s : Seg n) (page order : Nat) (type : PageType) : Seg n :=
  { s with type := fun p => if page ≤ p ∧ p < page + 2 ^ order then type else s.type p }

/-- The page of an allocation of order 0: from the pool of the processor, which is filled
when it is empty. -/
def allocFromPool (s : Seg n) (cpu : Fin n) (privileged : Bool) : Option Nat × Seg n :=
  if (s.cpuPools cpu).nrPages = 0 then
    let (filled, s) := poolFill cpu privileged (s.cpuPools cpu).transferSize s
    if filled = 0 then (none, s) else s.poolPop cpu
  else s.poolPop cpu

/-- `vm_page_seg_alloc`. -/
def alloc (s : Seg n) (cpu : Fin n) (order : Nat) (type : PageType) (privileged : Bool) :
    Option Nat × Seg n :=
  match (if order = 0 then s.allocFromPool cpu privileged else s.allocFromBuddy order privileged) with
  | (none, s) => (none, s)
  | (some page, s) => (some page, s.setType page order type)

/-- `vm_page_seg_free`. -/
def free (s : Seg n) (cpu : Fin n) (page order : Nat) : Seg n :=
  let s := s.setType page order .free
  if order = 0 then
    let s := if (s.cpuPools cpu).nrPages = (s.cpuPools cpu).size then
        poolDrain cpu (s.cpuPools cpu).transferSize s
      else s
    s.poolPush cpu page
  else s.freeToBuddy page order

/-- `vm_page_manage`, and what `vm_page_setup` does with each page. -/
def manage (s : Seg n) (page : Nat) : Seg n := (s.setType page 0 .free).freeToBuddy page 0

def freePages (s : Seg n) : Multiset Nat := places nrFreeLists fun k => (s.freeLists k).blocks

def poolPages (s : Seg n) : Multiset Nat := ∑ cpu, ((s.cpuPools cpu).pages : Multiset Nat)

end Seg

/-! ## The system -/

structure Sys (n : Nat) where
  seg : Seg n
  held : Multiset Nat

inductive Action (n : Nat)
  | alloc (cpu : Fin n) (order : Nat) (type : PageType) (privileged : Bool)
  | free (cpu : Fin n) (page order : Nat)
  | manage (page : Nat)

def step (s : Sys n) : Action n → Option (Sys n)
  | .alloc cpu order type privileged =>
    if order < nrFreeLists then
      match s.seg.alloc cpu order type privileged with
      | (none, seg) => some { s with seg := seg }
      | (some page, seg) => some ⟨seg, s.held + block page order⟩
    else none
  | .free cpu page order =>
    if order < nrFreeLists ∧ Aligned page order ∧ block page order ≤ s.held then
      some ⟨s.seg.free cpu page order, s.held - block page order⟩
    else none
  | .manage page =>
    if page ∈ s.held then some ⟨s.seg.manage page, s.held - {page}⟩ else none

/-- After `vm_page_seg_init`: nothing is free. -/
structure Sys.Init (s : Sys n) : Prop where
  order : ∀ p, s.seg.order p = orderUnlisted
  lists : ∀ k, s.seg.freeLists k = ⟨0, []⟩
  pools : ∀ cpu, (s.seg.cpuPools cpu).nrPages = 0 ∧ (s.seg.cpuPools cpu).pages = []
  count : s.seg.nrFreePages = 0
  held : s.held = Multiset.Ico s.seg.start s.seg.stop

def lts (n : Nat) : Lts (Sys n) (Action n) where
  init := Sys.Init
  step := step

end Mach.Vm.PageSeg
