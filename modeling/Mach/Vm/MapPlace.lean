import Mach.Vm.MapLock

/-!
# Where a range goes in an address map

The search of `vm_map_find_entry_anywhere`, with the random displacement and the placement
that it applies. It looks behind `first_free`, and then for the smallest gap that is large
enough, in the tree of the gaps behind entries. In an empty map it takes the lowest address,
displaced and placed.

An address is usable if its range lies in the map and below the limit of the mask, is
aligned, meets no entry, and follows the entry that is returned. In a map with an entry the
checks of the search are enough for that. In an empty map they are not: the limit of a mask
may be above the end of the map, and `vm_map_optimize_placement` does not know the mask.
-/

namespace Mach.Vm.MapPlace

open List Option

open MapLock (splitMask)

structure Entry where
  start : BitVec 64
  stop : BitVec 64
  deriving DecidableEq

/-- What the search reads of a map. Entries are given by their index; the header is `none`. -/
structure Map where
  minOffset : BitVec 64
  maxOffset : BitVec 64
  entries : List Entry
  firstFree : Option Nat
  gapOrder : List Nat
  size : BitVec 64
  aslrEnabled : Bool
  entropyBits : Nat
  preferHighAddr : Bool

def pageSize : BitVec 64 := 4096

/-- `VM_MAP_LARGE_PAGE_SIZE`. -/
def largePageSize : BitVec 64 := 2 * 1024 * 1024

/-- `VM_MAP_PREFER_HIGH_THRESHOLD`. -/
def preferHighThreshold : BitVec 64 := 128 * 1024 * 1024

def alignUp (x mask : BitVec 64) : BitVec 64 := (x + mask) &&& ~~~mask

namespace Map

variable (m : Map)

/-! ## Gaps -/

def gapEnd (i : Nat) : BitVec 64 :=
  match m.entries[i + 1]? with
  | some next => next.start
  | none => m.maxOffset

/-- `vm_map_gap_compute`. -/
def gapSize (i : Nat) (e : Entry) : BitVec 64 := m.gapEnd i - e.stop

def gapsFrom (maxSize : BitVec 64) : List (Nat × Entry) :=
  (m.gapOrder.filterMap fun i => (m.entries[i]?).map (i, ·)).filter fun p =>
    maxSize ≤ m.gapSize p.1 p.2

/-- `rbtree_lookup_nearest` in the gap tree: the last entry with the smallest of these
gaps. -/
def nearestGap (maxSize : BitVec 64) : Option (Nat × Entry) :=
  ((m.gapsFrom maxSize).filter fun p => (m.gapsFrom maxSize).all fun q =>
    m.gapSize p.1 p.2 ≤ m.gapSize q.1 q.2).getLast?

/-! ## Displacement and placement -/

/-- `vm_map_memory_pressure`. -/
def memoryPressure : Bool := (m.maxOffset - m.minOffset) * 3 / 4 < m.size

/-- `vm_map_get_aslr_entropy`; `draw` is what `vm_map_get_simple_entropy` returns. -/
def getAslrEntropy (size draw : BitVec 64) : BitVec 64 :=
  if ¬ m.aslrEnabled ∨ size = 0 then 0
  else
    let bits := if m.entropyBits = 0 then 8 else m.entropyBits
    let bits := if m.memoryPressure then max (bits / 2) 4 else bits
    let range := (1 <<< (bits % 64)) * pageSize
    let quarter := (m.maxOffset - m.minOffset) / 4
    let range := if quarter < range then quarter &&& ~~~(pageSize - 1) else range
    if range = 0 then 0 else draw % (range / pageSize) * pageSize

/-- `vm_map_optimize_placement`. -/
def optimizePlacement (size suggested : BitVec 64) : BitVec 64 :=
  if size = 0 then suggested
  else
    let aligned := alignUp suggested (largePageSize - 1)
    let optimized :=
      if largePageSize ≤ size ∧ ¬ (aligned < m.minOffset ∨ m.maxOffset < aligned + size) then aligned
      else suggested
    let high := m.maxOffset - (m.maxOffset - m.minOffset) / 4
    let highAddr := if largePageSize ≤ size then alignUp high (largePageSize - 1) else high
    if m.preferHighAddr ∧ preferHighThreshold ≤ size ∧ optimized < high ∧
        highAddr + size ≤ m.maxOffset then highAddr
    else optimized

/-! ## The search -/

inductive Result
  | found (entry : Option Nat) (start : BitVec 64)
  | null
  | noGap
  | panic
  deriving DecidableEq

variable (size mask max draw : BitVec 64)

def emptyStart : BitVec 64 :=
  let start := alignUp m.minOffset mask
  let randomized := alignUp (start + m.getAslrEntropy size draw) mask
  m.optimizePlacement size
    (if m.aslrEnabled ∧ m.minOffset ≤ randomized ∧ randomized + size ≤ max ∧
        randomized < randomized + size then randomized else start)

def inEmpty : Result :=
  let start := m.emptyStart size mask max draw
  if start < m.minOffset ∨ start + size ≤ start ∨ max < start + size then .null
  else .found none start

/-- The address behind the entry of `first_free`. -/
def hintStart (i : Nat) (e : Entry) : BitVec 64 :=
  let start := alignUp e.stop mask
  let entropy := m.getAslrEntropy size draw
  let available := m.gapSize i e - (size + mask)
  let maxEntropy := available &&& ~~~(pageSize - 1)
  if m.aslrEnabled ∧ size + mask < m.gapSize i e ∧ 0 < available ∧ 0 < entropy ∧ 0 < maxEntropy then
    alignUp (start + entropy % (maxEntropy / pageSize + 1) * pageSize) mask
  else start

def atHint : Option Result :=
  match m.firstFree with
  | none => none
  | some i => (m.entries[i]?).bind fun e =>
    let start := m.hintStart size mask draw i e
    let stop := start + size
    if e.stop ≤ start ∧ start < stop ∧ stop ≤ max ∧ stop ≤ e.stop + m.gapSize i e then
      some (.found (some i) start)
    else none

def gapStart (i : Nat) (e : Entry) : BitVec 64 :=
  let start := alignUp e.stop mask
  let available := m.gapSize i e - (size + mask)
  let maxEntropy := available &&& ~~~(pageSize - 1)
  let entropy := m.getAslrEntropy size draw
  let entropy := if maxEntropy < entropy then entropy % (maxEntropy / pageSize + 1) * pageSize else entropy
  let randomized := alignUp (start + entropy) mask
  if m.aslrEnabled ∧ size + mask < m.gapSize i e ∧ 0 < entropy ∧ entropy ≤ available ∧
      e.stop ≤ randomized ∧ randomized + size ≤ e.stop + m.gapSize i e then randomized
  else start

def inGaps : Result :=
  if size + mask < size then .null
  else
    match m.nearestGap (size + mask) with
    | none => .noGap
    | some (i, e) =>
      let start := m.gapStart size mask draw i e
      let stop := start + size
      if ¬ (size + mask ≤ m.gapSize i e ∧ e.stop ≤ start ∧ start < stop ∧
          stop ≤ e.stop + m.gapSize i e) then .panic
      else if max < stop then .null
      else .found (some i) start

/-- `vm_map_find_entry_anywhere`, up to where it waits; `draws` are the random numbers. -/
def findEntryAnywhere (m : Map) (size mask : BitVec 64) (draws : BitVec 64 × BitVec 64) : Result :=
  match splitMask mask m.maxOffset with
  | none => .null
  | some (mask, max) =>
    if m.entries = [] then m.inEmpty size mask max draws.1
    else (m.atHint size mask max draws.1).getD (m.inGaps size mask max draws.2)

/-! ## Usable addresses -/

/-- The entries lie in the map, one after the other. -/
structure WF : Prop where
  inside : ∀ e ∈ m.entries, m.minOffset ≤ e.start ∧ e.start < e.stop ∧ e.stop ≤ m.maxOffset
  sorted : m.entries.Pairwise fun a b => a.stop ≤ b.start

/-- The range can be used: it lies in the map and below the limit, is aligned, meets no
entry, and the entries that end before it are those up to the given one. -/
structure Usable (entry : Option Nat) (start : BitVec 64) : Prop where
  lower : m.minOffset ≤ start
  upper : start.toNat + size.toNat ≤ m.maxOffset.toNat
  limit : start.toNat + size.toNat ≤ max.toNat
  aligned : start &&& mask = 0
  disjoint : ∀ e ∈ m.entries, e.stop ≤ start ∨ start.toNat + size.toNat ≤ e.start.toNat
  preceding : ∀ j e, m.entries[j]? = some e → (e.stop ≤ start ↔ ∃ i ∈ entry, j ≤ i)

/-- What an empty map, a mask and a size are to be like. -/
structure Places (draw : BitVec 64) : Prop where
  /-- The limit of the mask is not above the map, or the map has room for the displacement and
  for aligning the range twice. -/
  room : max ≤ m.maxOffset ∨ m.minOffset.toNat + (m.getAslrEntropy size draw).toNat +
    2 * mask.toNat + size.toNat ≤ m.maxOffset.toNat
  /-- From two megabytes on a range is placed at a multiple of these, which is to be aligned for
  the mask; or the mask asks for that too, and the range is not placed at a high address. -/
  aligned : size < largePageSize ∨ mask &&& (largePageSize - 1) = mask ∨
    mask &&& (largePageSize - 1) = largePageSize - 1 ∧
      ¬ (m.preferHighAddr ∧ preferHighThreshold ≤ size)

end Map

variable {m : Map} {size mask max draw start : BitVec 64} {i j : Nat} {e e' : Entry}

theorem alignUp_aligned (x mask : BitVec 64) : alignUp x mask &&& mask = 0 := by
  simp [alignUp, BitVec.and_assoc]

theorem hintStart_aligned : m.hintStart size mask draw i e &&& mask = 0 := by
  unfold Map.hintStart
  extract_lets
  split <;> exact alignUp_aligned ..

theorem gapStart_aligned : m.gapStart size mask draw i e &&& mask = 0 := by
  unfold Map.gapStart
  extract_lets
  split <;> exact alignUp_aligned ..

theorem toNat_add_of_lt (h : start < start + size) :
    start.toNat + size.toNat = (start + size).toNat := by
  bv_omega

section

variable (hwf : m.WF) (he : m.entries[i]? = some e)
include hwf he

theorem stop_le_of_lt (he' : m.entries[j]? = some e') (hij : i < j) : e.stop ≤ e'.start := by
  obtain ⟨hi, rfl⟩ := List.getElem?_eq_some_iff.mp he
  obtain ⟨hj, rfl⟩ := List.getElem?_eq_some_iff.mp he'
  exact pairwise_iff_getElem.mp hwf.sorted i j hi hj hij

omit he in
theorem gapEnd_le (he' : m.entries[j]? = some e') (hij : i < j) : m.gapEnd i ≤ e'.start := by
  unfold Map.gapEnd
  have hlt : i + 1 < m.entries.length := Nat.lt_of_le_of_lt hij (List.getElem?_eq_some_iff.mp he').1
  rw [List.getElem?_eq_getElem hlt]
  rcases Nat.lt_or_eq_of_le hij with hlt' | rfl
  · have hnext := stop_le_of_lt hwf (List.getElem?_eq_getElem hlt) he' hlt'
    have := (hwf.inside _ (getElem_mem hlt)).2.1
    bv_omega
  · cases (List.getElem?_eq_getElem hlt).symm.trans he'
    exact BitVec.le_refl _

omit he in
theorem gapEnd_le_max (i : Nat) : m.gapEnd i ≤ m.maxOffset := by
  unfold Map.gapEnd
  split
  next next hnext =>
    have := hwf.inside next (mem_of_getElem? hnext)
    bv_omega
  · exact BitVec.le_refl _

theorem usable_behind (hstop : e.stop ≤ start) (hwrap : start < start + size)
    (hgap : start + size ≤ e.stop + m.gapSize i e) (hmax : start + size ≤ max)
    (halign : start &&& mask = 0) : m.Usable size mask max (some i) start := by
  have hsum := toNat_add_of_lt hwrap
  have hend : start + size ≤ m.gapEnd i := by
    have : e.stop + m.gapSize i e = m.gapEnd i := by
      unfold Map.gapSize
      bv_omega
    rwa [this] at hgap
  have hinside := hwf.inside e (mem_of_getElem? he)
  have hbefore : ∀ {j e'}, m.entries[j]? = some e' → j ≤ i → e'.stop ≤ start := by
    intro j e' he' hji
    rcases Nat.lt_or_eq_of_le hji with hlt | rfl
    · have := stop_le_of_lt hwf he' he hlt
      bv_omega
    · cases he.symm.trans he'
      exact hstop
  have hafter : ∀ {j e'}, m.entries[j]? = some e' → i < j → start + size ≤ e'.start :=
    fun he' hij => BitVec.le_trans hend (gapEnd_le hwf he' hij)
  refine ⟨?_, ?_, hsum ▸ hmax, halign, fun e' he' => ?_, fun j e' he' => ?_⟩
  · bv_omega
  · have := gapEnd_le_max hwf i
    bv_omega
  · obtain ⟨j, hj⟩ := getElem?_of_mem he'
    rcases Nat.lt_or_ge i j with hij | hji
    · right
      have := hafter hj hij
      bv_omega
    · exact .inl (hbefore hj hji)
  · refine ⟨fun hle => ⟨i, rfl, ?_⟩, fun ⟨_, hi, hji⟩ => hbefore he' (Option.some.inj hi ▸ hji)⟩
    by_contra hij
    have := hafter he' (by omega)
    have := (hwf.inside e' (mem_of_getElem? he')).2.1
    bv_omega

end

theorem atHint_usable (hwf : m.WF) {entry : Option Nat}
    (h : m.atHint size mask max draw = some (.found entry start)) :
    m.Usable size mask max entry start := by
  unfold Map.atHint at h
  split at h
  · cases h
  rename_i i _
  obtain ⟨e, he, h⟩ := bind_eq_some_iff.mp h
  obtain ⟨⟨hstop, hwrap, hmax, hgap⟩, h⟩ := ite_none_right_eq_some.mp h
  cases h
  exact usable_behind hwf he hstop hwrap hgap hmax hintStart_aligned

theorem nearestGap_mem {maxSize : BitVec 64} (h : m.nearestGap maxSize = some (i, e)) :
    m.entries[i]? = some e := by
  have hmem := mem_of_mem_filter (mem_of_mem_filter (mem_of_getLast? h))
  obtain ⟨k, _, hk⟩ := mem_filterMap.mp hmem
  obtain ⟨_, he, heq⟩ := map_eq_some_iff.mp hk
  cases heq
  exact he

theorem inGaps_usable (hwf : m.WF) {entry : Option Nat}
    (h : m.inGaps size mask max draw = .found entry start) : m.Usable size mask max entry start := by
  unfold Map.inGaps at h
  split at h
  · cases h
  split at h
  · cases h
  rename_i i e hnear
  dsimp only at h
  split at h
  · cases h
  rename_i hassert
  split at h
  · cases h
  rename_i hmax
  cases h
  obtain ⟨-, hstop, hwrap, hgap⟩ := not_not.mp hassert
  exact usable_behind hwf (nearestGap_mem hnear) hstop hwrap hgap (BitVec.not_lt.mp hmax)
    gapStart_aligned

/-! ## Empty maps -/

theorem alignUp_le (start mask : BitVec 64) (h : start.toNat + mask.toNat < 2 ^ 64) :
    (alignUp start mask).toNat ≤ start.toNat + mask.toNat := by
  unfold alignUp
  rw [BitVec.toNat_and, BitVec.toNat_add, Nat.mod_eq_of_lt h]
  exact Nat.and_le_left

theorem alignUp_large_aligned (h : mask &&& (largePageSize - 1) = mask) :
    alignUp start (largePageSize - 1) &&& mask = 0 := by
  rw [← h, BitVec.and_comm mask, ← BitVec.and_assoc, alignUp_aligned]
  exact BitVec.zero_and

theorem alignUp_large_eq (h : start &&& (largePageSize - 1) = 0) :
    alignUp start (largePageSize - 1) = start := by
  have hmod : ∀ x : BitVec 64, (x &&& (largePageSize - 1)).toNat = x.toNat % 2097152 := fun x =>
    (BitVec.toNat_and ..).trans (Nat.and_two_pow_sub_one_eq_mod x.toNat 21)
  have hparts : ∀ x y : BitVec 64, (x &&& y) + (x &&& ~~~y) = x := by
    intro x y
    rw [BitVec.add_eq_or_of_and_eq_zero, ← BitVec.and_or_distrib_left, BitVec.or_not_self,
      BitVec.and_allOnes]
    rw [BitVec.and_comm x (~~~y), BitVec.and_assoc, ← BitVec.and_assoc y, ← BitVec.and_assoc x]
    simp
  have hlow := hmod (start + (largePageSize - 1))
  have hsum := hparts (start + (largePageSize - 1)) (largePageSize - 1)
  have hzero := hmod start
  rw [h] at hzero
  unfold alignUp
  unfold largePageSize at *
  bv_omega

theorem optimizePlacement_cases (m : Map) (size suggested : BitVec 64) :
    m.optimizePlacement size suggested = suggested ∨
    largePageSize ≤ size ∧ m.optimizePlacement size suggested + size ≤ m.maxOffset ∧
      (m.optimizePlacement size suggested = alignUp suggested (largePageSize - 1) ∨
        (m.preferHighAddr ∧ preferHighThreshold ≤ size) ∧
          ∃ high, m.optimizePlacement size suggested = alignUp high (largePageSize - 1)) := by
  unfold Map.optimizePlacement
  split
  · exact .inl rfl
  extract_lets aligned optimized high highAddr
  split
  next hhigh =>
    obtain ⟨hprefer, hsize, -, hfits⟩ := hhigh
    have hlarge : largePageSize ≤ size := BitVec.le_trans (by decide) hsize
    exact .inr ⟨hlarge, hfits, .inr ⟨⟨hprefer, hsize⟩, high, if_pos hlarge⟩⟩
  next =>
    by_cases hfits : largePageSize ≤ size ∧ ¬ (aligned < m.minOffset ∨ m.maxOffset < aligned + size)
    · rw [show optimized = aligned from if_pos hfits]
      refine .inr ⟨hfits.1, ?_, .inl rfl⟩
      exact BitVec.not_lt.mp fun hlt => hfits.2 (.inr hlt)
    · exact .inl (if_neg hfits)

theorem suggested_spec (m : Map) (size mask max draw : BitVec 64) :
    ∃ suggested, m.emptyStart size mask max draw = m.optimizePlacement size suggested ∧
      suggested &&& mask = 0 ∧
      (m.minOffset.toNat + (m.getAslrEntropy size draw).toNat + 2 * mask.toNat + size.toNat ≤
          m.maxOffset.toNat →
        suggested.toNat + size.toNat ≤ m.maxOffset.toNat) := by
  have hmax := m.maxOffset.isLt
  refine ⟨_, rfl, ?_, fun hroom => ?_⟩
  · split <;> exact alignUp_aligned ..
  · have hstart := alignUp_le m.minOffset mask (by omega)
    split
    · have hsum : (alignUp m.minOffset mask + m.getAslrEntropy size draw).toNat =
          (alignUp m.minOffset mask).toNat + (m.getAslrEntropy size draw).toNat := by
        rw [BitVec.toNat_add, Nat.mod_eq_of_lt (by omega)]
      have := alignUp_le (alignUp m.minOffset mask + m.getAslrEntropy size draw) mask (by omega)
      omega
    · omega

theorem inEmpty_usable (hnil : m.entries = []) (hp : m.Places size mask max draw) {entry : Option Nat}
    (h : m.inEmpty size mask max draw = .found entry start) : m.Usable size mask max entry start := by
  obtain ⟨suggested, hstart, haligned, hroom⟩ := suggested_spec m size mask max draw
  unfold Map.inEmpty at h
  dsimp only at h
  split at h
  · cases h
  rename_i hchecks
  rw [hstart] at h hchecks
  cases h
  simp only [not_or, BitVec.not_lt, BitVec.not_le] at hchecks
  obtain ⟨hlower, hwrap, hmax⟩ := hchecks
  have hsum := toNat_add_of_lt hwrap
  have hnone : ∀ e ∈ m.entries, False := by
    rw [hnil]
    exact fun _ => not_mem_nil
  refine ⟨hlower, ?_, by bv_omega, ?_, fun e he => (hnone e he).elim,
    fun j e he => (hnone e (mem_of_getElem? he)).elim⟩
  · rcases optimizePlacement_cases m size suggested with heq | ⟨-, hfits, -⟩
    · rcases hp.room with hlimit | henough
      · bv_omega
      · rw [heq]
        exact hroom henough
    · bv_omega
  · rcases optimizePlacement_cases m size suggested with heq | ⟨hlarge, -, hplaced⟩
    · rw [heq, haligned]
    · rcases hp.aligned with hsmall | hsub | ⟨hsup, hlow⟩
      · exact absurd hlarge (BitVec.not_le.mpr hsmall)
      · rcases hplaced with heq | ⟨-, high, heq⟩ <;> rw [heq, alignUp_large_aligned hsub]
      · -- what is aligned for such a mask is a multiple of two megabytes already
        have heq := hplaced.resolve_right fun hhigh => hlow hhigh.1
        rw [heq, alignUp_large_eq, haligned]
        rw [← hsup, ← BitVec.and_assoc, haligned]
        exact BitVec.zero_and

def onePage : Map where
  minOffset := 0x1000
  maxOffset := 0x10000
  entries := [⟨0x2000, 0x3000⟩]
  firstFree := some 0
  gapOrder := [0]
  size := 0x1000
  aslrEnabled := true
  entropyBits := 8
  preferHighAddr := false

def gigabyte : Map :=
  { onePage with
    maxOffset := 0x40000000
    entries := []
    firstFree := none
    gapOrder := []
    size := 0
    preferHighAddr := true }

end Mach.Vm.MapPlace
