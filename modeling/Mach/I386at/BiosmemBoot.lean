import Mach.I386at.BiosmemMap

/-!
# Boot data, the boot heap and free memory

The part of `i386/i386at/biosmem.c` that works on the adjusted memory map: the ranges of boot
data, the heap that is set up in the largest gap between them, the segments of physical
memory, and the release of all free memory to the page allocator. `phys_addr_t` is 64 bits
wide.
-/

namespace Mach.I386at.Biosmem

/-- `PAGE_SIZE`. -/
def pageSize : Nat := 4096

/-- `BIOSMEM_BASE`. -/
def biosmemBase : Nat := 0x10000

/-- `BIOSMEM_END`. -/
def biosmemEnd : Nat := 0x100000

/-- `BIOSMEM_TYPE_AVAILABLE`. -/
def typeAvailable : Nat := 1

/-- `BIOSMEM_MAX_BOOT_DATA`. -/
def maxBootData : Nat := 64

/-- `vm_page_trunc`. -/
def pageTrunc (x : Nat) : Nat := x / pageSize * pageSize

/-- `vm_page_round`. -/
def pageRound (x : Nat) : Nat := (x + (pageSize - 1)) / pageSize * pageSize % 2 ^ 64

structure Limits where
  /-- `VM_PAGE_DMA_LIMIT` -/
  dma : Nat
  /-- the limits above, up to `VM_PAGE_HIGHMEM_LIMIT`: those of the direct mapping and of
  32-bit DMA in the order of their values -/
  above : List Nat
  /-- `VM_PAGE_DIRECTMAP_LIMIT` -/
  directmap : Nat
  /-- `VM_PAGE_HIGHMEM_LIMIT` -/
  highmem : Nat
  /-- `NCPUS > 1` -/
  smp : Bool

inductive Panic
  | invalBootData
  | tooManyBootData
  /-- `unable to set up the early memory allocator` -/
  | setup
  /-- `unable to find any memory segment` -/
  | noseg
  /-- `attempt to allocate 0 page` -/
  | inval
  /-- `unable to allocate memory` -/
  | nomem
  /-- an `assert` -/
  | assertion
  | endless
deriving DecidableEq

/-! ## Boot data -/

/-- `struct biosmem_boot_data`. -/
structure BootData where
  start : Nat
  stop : Nat
  temporary : Bool
deriving DecidableEq

/-- The loop of `biosmem_register_boot_data`, with the insertion. -/
def registerLoop (new : BootData) : List BootData → Except Panic (List BootData)
  | [] => .ok [new]
  | data :: rest =>
    -- check if the new range overlaps
    if new.stop > data.start ∧ new.start < data.stop then
      if new.start ≥ data.start ∧ new.stop ≤ data.stop then
        -- a permanent range remains permanent
        .ok ((if data.temporary ≠ new.temporary then { data with temporary := false } else data) :: rest)
      else .error .invalBootData
    else if new.stop ≤ data.start then .ok (new :: data :: rest)
    else
      match registerLoop new rest with
      | .error p => .error p
      | .ok rest => .ok (data :: rest)

/-- `biosmem_register_boot_data`. -/
def registerBootData (new : BootData) (array : List BootData) : Except Panic (List BootData) :=
  if new.start ≥ new.stop then .error .invalBootData
  else if array.length = maxBootData then .error .tooManyBootData
  else registerLoop new array

def registerAll : List BootData → List BootData → Except Panic (List BootData)
  | array, [] => .ok array
  | array, new :: rest =>
    match registerBootData new array with
    | .error p => .error p
    | .ok array => registerAll array rest

/-- `biosmem_unregister_boot_data`, of a range that is registered. -/
def unregisterBootData (start stop : Nat) : List BootData → List BootData
  | [] => []
  | data :: rest =>
    if start = data.start ∧ stop = data.stop then rest
    else data :: unregisterBootData start stop rest

/-- `biosmem_unregister_temporary_boot_data`: the loop starts again after each removal. -/
def unregisterTemporary : Nat → List BootData → List BootData
  | 0, array => array
  | fuel + 1, array =>
    match array.find? fun data => data.temporary with
    | none => array
    | some data => unregisterTemporary fuel (unregisterBootData data.start data.stop array)

/-! ## Gaps -/

/-- `biosmem_find_avail_clip`; `none` is an error. -/
def findAvailClip (availStart availEnd : Nat) (data : BootData) : Except Panic (Option (Nat × Nat)) :=
  let dataStart := pageTrunc data.start
  let dataEnd := pageRound data.stop
  if dataEnd < data.stop then .error .invalBootData
  else if dataEnd ≤ availStart ∨ dataStart ≥ availEnd then .ok (some (availStart, availEnd))
  else if dataStart > availStart then .ok (some (availStart, dataStart))
  else if dataEnd ≥ availEnd then .ok none
  else .ok (some (dataEnd, availEnd))

/-- The loop of `biosmem_find_avail`. -/
def clipLoop : List BootData → Nat → Nat → Except Panic (Option (Nat × Nat))
  | [], availStart, availEnd => .ok (some (availStart, availEnd))
  | data :: rest, availStart, availEnd =>
    match findAvailClip availStart availEnd data with
    | .error p => .error p
    | .ok none => .ok none
    | .ok (some (availStart, availEnd)) => clipLoop rest availStart availEnd

/-- `biosmem_find_avail`. -/
def findAvail (array : List BootData) (start stop : Nat) : Except Panic (Option (Nat × Nat)) :=
  if start ≤ stop then
    if pageRound start < start ∨ pageRound start ≥ pageTrunc stop then .ok none
    else clipLoop array (pageRound start) (pageTrunc stop)
  else .error .assertion

/-- `for (;;)` of `biosmem_setup_allocator` and `biosmem_free_usable_entry`: the ranges that
are found one after another. -/
def gaps (array : List BootData) (stop : Nat) : Nat → Nat → Except Panic (List (Nat × Nat))
  | 0, _ => .error .endless
  | fuel + 1, start =>
    match findAvail array start stop with
    | .error p => .error p
    | .ok none => .ok []
    | .ok (some (availStart, availEnd)) =>
      match gaps array stop fuel availEnd with
      | .error p => .error p
      | .ok rest => .ok ((availStart, availEnd) :: rest)

/-! ## The heap -/

structure Heap where
  start : Nat
  bottom : Nat
  top : Nat
  stop : Nat
  topdown : Bool
deriving DecidableEq

/-- The end of the search: `mem_upper` is a `uint32_t`. -/
def heapLimit (lim : Limits) (memUpper : Nat) : Nat :=
  let stop := pageTrunc ((memUpper + 1024) * 1024 % 2 ^ 32)
  if stop > lim.directmap then lim.directmap else stop

def largest (best range : Nat × Nat) : Nat × Nat :=
  if range.2 - range.1 > best.2 - best.1 then range else best

/-- `biosmem_setup_allocator`. -/
def setupAllocator (lim : Limits) (memUpper : Nat) (array : List BootData) :
    Except Panic (Heap × List BootData) :=
  let stop := heapLimit lim memUpper
  match gaps array stop (stop / pageSize + 2) biosmemEnd with
  | .error p => .error p
  | .ok ranges =>
    let (start, stop) := ranges.foldl largest (0, 0)
    if start ≥ stop then .error .setup
    else
      match registerBootData ⟨start, stop, false⟩ array with
      | .error p => .error p
      | .ok array => .ok (⟨start, start, stop, stop, true⟩, array)

/-- `vm_page_ptoa` of an `unsigned int`. -/
def pagePtoa (n : Nat) : Nat := n * pageSize % 2 ^ 32

/-- `biosmem_bootalloc`. -/
def bootalloc (heap : Heap) (nrPages : Nat) : Except Panic (Nat × Heap) :=
  let size := pagePtoa nrPages
  if size = 0 then .error .inval
  else if heap.topdown then
    let addr := sub64 heap.top size
    if addr < heap.start ∨ addr > heap.top then .error .nomem
    else .ok (addr, { heap with top := addr })
  else
    let stop := add64 heap.bottom size
    if stop > heap.stop ∨ stop < heap.bottom then .error .nomem
    else .ok (heap.bottom, { heap with bottom := stop })

def bootallocs : Heap → List Nat → Except Panic (List (Nat × Nat))
  | _, [] => .ok []
  | heap, n :: rest =>
    match bootalloc heap n with
    | .error p => .error p
    | .ok (addr, heap) =>
      match bootallocs heap rest with
      | .error p => .error p
      | .ok ranges => .ok ((addr, addr + n * pageSize) :: ranges)

/-! ## Segments -/

/-- The loop of `biosmem_map_find_avail`. -/
def findAvailLoop (physStart physEnd : Nat) : List Entry → Option (Nat × Nat) → Option (Nat × Nat)
  | [], seg => seg
  | entry :: rest, seg =>
    if entry.type ≠ typeAvailable then findAvailLoop physStart physEnd rest seg
    else
      let start := pageRound entry.base
      if start ≥ physEnd then seg
      else
        let stop := pageTrunc entry.stop
        if start < stop ∧ stop > physStart then
          findAvailLoop physStart physEnd rest (some ((seg.map Prod.fst).getD start, stop))
        else findAvailLoop physStart physEnd rest seg

/-- `biosmem_map_find_avail`; `none` is an error. -/
def mapFindAvail (map : List Entry) (physStart physEnd : Nat) : Option (Nat × Nat) :=
  (findAvailLoop physStart physEnd map none).map fun (segStart, segEnd) =>
    (if segStart > physStart then segStart else physStart, if segEnd < physEnd then segEnd else physEnd)

def segmentsAbove (map : List Entry) : Nat → List Nat → List (Nat × Nat)
  | _, [] => []
  | physStart, physEnd :: rest =>
    match mapFindAvail map physStart physEnd with
    | none => []
    | some seg => seg :: segmentsAbove map physEnd rest

/-- `biosmem_bootstrap_common`, after the map has been adjusted. -/
def bootstrapCommon (lim : Limits) (map : List Entry) : Except Panic (List (Nat × Nat)) :=
  match mapFindAvail map biosmemBase lim.dma with
  | none => .error .noseg
  | some (physStart, physEnd) =>
    if lim.smp then
      -- grab an early page for AP boot code
      if physStart < 0x100000 then
        .ok ((physStart + pageSize, physEnd) :: segmentsAbove map lim.dma lim.above)
      else .error .assertion
    else .ok ((physStart, physEnd) :: segmentsAbove map lim.dma lim.above)

/-- `biosmem_setup`: the segments are loaded up to one of size 0. -/
def loadedSegments (segs : List (Nat × Nat)) : List (Nat × Nat) :=
  segs.takeWhile fun seg => seg.2 - seg.1 ≠ 0

/-- `vm_page_lookup_pa` finds a page. -/
def lookupPa (segs : List (Nat × Nat)) (pa : Nat) : Bool := segs.any fun seg => seg.1 ≤ pa && pa < seg.2

/-! ## Free memory -/

/-- The pages that `biosmem_free_usable_range` goes through. -/
def pagesOf (range : Nat × Nat) : List Nat :=
  (List.range ((range.2 - range.1 + (pageSize - 1)) / pageSize)).map fun i => range.1 + i * pageSize

/-- `vm_page_manage` of each page. -/
def manage (segs : List (Nat × Nat)) : List Nat → Except Panic (List Nat)
  | [] => .ok []
  | page :: rest =>
    if lookupPa segs page then
      match manage segs rest with
      | .error p => .error p
      | .ok pages => .ok (page :: pages)
    else .error .assertion

/-- The loop of `biosmem_free_usable`: the pages that are released. -/
def usable (lim : Limits) (array : List BootData) : List Entry → Except Panic (List Nat)
  | [] => .ok []
  | entry :: rest =>
    if entry.type ≠ typeAvailable then usable lim array rest
    else
      let start := pageRound entry.base
      if start ≥ lim.highmem then .ok []
      else
        let stop := pageTrunc entry.stop
        let stop := if stop > lim.highmem then lim.highmem else stop
        let start := if start < biosmemBase then biosmemBase else start
        if start ≥ stop then usable lim array rest
        else
          match gaps array stop (stop / pageSize + 2) start with
          | .error p => .error p
          | .ok ranges =>
            match usable lim array rest with
            | .error p => .error p
            | .ok pages => .ok (ranges.flatMap pagesOf ++ pages)

/-- `biosmem_free_usable`: the pages that are passed to `vm_page_manage`. -/
def freeUsable (lim : Limits) (segs : List (Nat × Nat)) (map : List Entry) (array : List BootData) :
    Except Panic (List Nat) :=
  match usable lim (unregisterTemporary array.length array) map with
  | .error p => .error p
  | .ok pages => manage (loadedSegments segs) pages

end Mach.I386at.Biosmem
