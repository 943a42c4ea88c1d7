import Mathlib.Data.BitVec

/-!
# The lock of an address map

What the functions of `vm/vm_map.c` that allocate in a map do to its lock, and to the
privilege that a thread has while it holds one. `vm_map_find_entry_anywhere` takes the lock
for its caller, drops and takes it again while it waits for space, and tells of a failure by
the same null result before and after it has taken it.

The arguments, the mask and the bounds of the map are those of the source. What the map and
the objects have to say beyond that, and what happens while the map is not locked, is given:
how each search ends, whether the range is free, whether a neighbour was extended, and so on.
-/

namespace Mach.Vm.MapLock

open Option

/-- How often the thread holds the lock of the map, its `vm_privilege`, and how often it has
unlocked a map that it did not hold. -/
structure Held where
  depth : Nat
  privilege : BitVec 32
  strays : Nat
  deriving DecidableEq

namespace Held

/-- `vm_map_lock`. -/
def lock (s : Held) : Held := { s with depth := s.depth + 1, privilege := s.privilege + 1 }

/-- `vm_map_unlock`. -/
def unlock (s : Held) : Held where
  depth := s.depth - 1
  privilege := s.privilege - 1
  strays := if s.depth = 0 then s.strays + 1 else s.strays


@[simp] theorem lock_unlock (s : Held) : s.lock.unlock = s := by simp [lock, unlock]

theorem unlock_lock {s : Held} (h : 0 < s.depth) : s.unlock.lock = s := by
  have hd : s.depth - 1 + 1 = s.depth := by omega
  simp [lock, unlock, hd, Nat.ne_of_gt h]

theorem unlock_ne (s : Held) : s.unlock ≠ s := by
  intro h
  have hp : s.privilege - 1 = s.privilege := congrArg privilege h
  simp at hp

end Held

inductive KernReturn
  | success | invalidArgument | invalidAddress | noSpace
  | failure
  deriving DecidableEq

/-! ## `vm_map_find_entry_anywhere` -/

/-- `__builtin_ffs`. Its argument is an `int`, the lower half of the word. -/
def ffs (x : BitVec 64) : Nat := ((List.range 32).find? fun i => x.getLsbD i).elim 0 (· + 1)

/-- `1UL << (n - 1)`, as the processor masks the count. -/
def bit (n : Nat) : BitVec 64 := 1 <<< ((n + 63) % 64)

/-- The low bits of the mask, and the limit that its high bits set; nothing if these do not
continue up to the end. -/
def splitMask (mask maxOffset : BitVec 64) : Option (BitVec 64 × BitVec 64) :=
  if (mask + 1) &&& mask = 0 then some (mask, maxOffset)
  else
    let lowmask := bit (ffs (~~~mask)) - 1
    let himask := mask - lowmask
    let max := bit (ffs himask)
    if himask + max ≠ 0 then none else some (lowmask, max)

/-- How one search ends: with an entry, with the message that there is no room, or with no
gap that is large enough. -/
inductive Search
  | entry | noRoom | noGap

structure Map where
  minOffset : BitVec 64
  maxOffset : BitVec 64
  waitForSpace : Bool

variable (map : Map) (mapLocked : Bool)

/-- The searches, and the waits between them: whether an entry was found. There is no result
as long as the thread waits. -/
def searches : List Search → Held → Option (Bool × Held)
  | [], _ => none
  | .entry :: _, s => some (true, s)
  | .noRoom :: _, s => some (false, s)
  | .noGap :: rest, s =>
    if mapLocked || !map.waitForSpace then some (false, s) else searches rest s.unlock.lock

/-- `vm_map_find_entry_anywhere`. -/
def findEntryAnywhere (mask : BitVec 64) (found : List Search) (s : Held) : Option (Bool × Held) :=
  match splitMask mask map.maxOffset with
  | none => some (false, s)
  | some _ => searches map mapLocked found (if mapLocked then s else s.lock)

/-! ## The callers -/

/-- `vm_map_find_entry`; its caller has locked the map. -/
def findEntry (mask : BitVec 64) (found : List Search) (s : Held) : Option (KernReturn × Held) :=
  (findEntryAnywhere map true mask found s).map fun (entry, s) =>
    (if entry then .success else .noSpace, s)

/-- How `vm_map_pageable` goes for a map that is locked: whether it succeeds, and whether it
has to fault in pages of a map of the kernel. This map it unlocks meanwhile. -/
structure Wiring where
  success : Bool
  kernelFaults : Bool

def pageable (w : Wiring) (s : Held) : Held := if w.success && w.kernelFaults then s.unlock.lock else s

/-- The arguments of `vm_map_enter`, and what it finds. -/
structure Enter where
  address : BitVec 64
  size : BitVec 64
  mask : BitVec 64
  anywhere : Bool
  found : List Search
  occupied : Bool
  overlaps : Bool
  coalesced : Bool
  /-- the map has `wiring_required` -/
  wiring : Option Wiring

/-- `vm_map_enter`, once it has the range. -/
def Enter.place (a : Enter) (s : Held) : KernReturn × Held :=
  if a.coalesced then (.success, s.unlock)
  else
    match a.wiring with
    | none => (.success, s.unlock)
    -- a failure is not reported either
    | some w => (.success, (pageable w s).unlock)

/-- `vm_map_enter`. -/
def enter (a : Enter) (s : Held) : Option (KernReturn × Held) :=
  if a.size = 0 then some (.invalidArgument, s)
  else if a.anywhere then
    (findEntryAnywhere map false a.mask a.found s).map fun (entry, s) =>
      if entry then a.place s else (.noSpace, s.unlock)
  else if a.address &&& a.mask ≠ 0 then some (.noSpace, s)
  else
    let s := s.lock
    let stop := a.address + a.size
    if a.address < map.minOffset ∨ stop > map.maxOffset ∨ a.address ≥ stop then
      some (.invalidAddress, s.unlock)
    else if a.occupied then some (.noSpace, s.unlock)
    else if a.overlaps then some (.noSpace, s.unlock)
    else some (a.place s)

/-- What `vm_map_copyout_page_list` meets: the searches, the outcomes of the continuations,
and how often `vm_map_delete` has to wait for an entry after one that failed. -/
structure PageList where
  found : List Search
  conts : List Bool
  waits : Nat

/-- The calls of `vm_map_copy_invoke_cont`, with the map unlocked; whether all succeeded. -/
def continuations : List Bool → Held → Bool × Held
  | [], s => (true, s)
  | true :: rest, s => continuations rest s.unlock.lock
  | false :: _, s => (false, s.unlock.lock)

/-- `vm_map_entry_wait` and `vm_map_lock`, so many times. -/
def entryWaits : Nat → Held → Held
  | 0, s => s
  | n + 1, s => entryWaits n s.unlock.lock

/-- `vm_map_copyout_page_list`. -/
def copyoutPageList (p : PageList) (s : Held) : Option (KernReturn × Held) :=
  (findEntryAnywhere map true 0 p.found s.lock).map fun (entry, s) =>
    if entry then
      match continuations p.conts s with
      | (true, s) => (.success, s.unlock)
      | (false, s) => (.failure, (entryWaits p.waits s).unlock)
    else (.noSpace, s.unlock)

inductive Copy
  | null
  /-- mapped by `vm_map_enter`; the rest of its arguments is fixed -/
  | object (size : BitVec 64) (a : Enter)
  | pageList (p : PageList)
  | entryList (found : List Search) (wiring : Option Wiring)

/-- `vm_map_copyout`. -/
def copyout (copy : Copy) (s : Held) : Option (KernReturn × Held) :=
  match copy with
  | .null => some (.success, s)
  | .object size a => enter map { a with address := 0, size := size, mask := 0, anywhere := true } s
  | .pageList p => copyoutPageList map p s
  | .entryList found wiring =>
    (findEntryAnywhere map false 0 found s).map fun (entry, s) =>
      if entry then
        match wiring with
        | none => (.success, s.unlock)
        | some w => (if w.success then .success else .noSpace, (pageable w s).unlock)
      else (.noSpace, s.unlock)

inductive Call
  | enter (a : Enter)
  | findEntry (mask : BitVec 64) (found : List Search)
  | copyout (copy : Copy)
  | copyoutPageList (p : PageList)

def Call.run : Call → Held → Option (KernReturn × Held)
  | .enter a => MapLock.enter map a
  | .findEntry mask found => MapLock.findEntry map mask found
  | .copyout copy => MapLock.copyout map copy
  | .copyoutPageList p => MapLock.copyoutPageList map p

/-- The call gives back the lock as often as it takes it, and never one that it does not
hold; the privilege is what it was. -/
def Balanced (f : Held → Option (KernReturn × Held)) : Prop := ∀ s r s', f s = some (r, s') → s' = s

/-- `vm_map_enter` is asked for any address under a mask whose high bits do not continue up
to the end. -/
def Call.BadMask : Call → Prop
  | .enter a => a.size ≠ 0 ∧ a.anywhere = true ∧ splitMask a.mask map.maxOffset = none
  | _ => False

/-! ## Balance -/

section

variable {map} {mapLocked} {mask : BitVec 64} {entry : Bool} {s s' : Held}

theorem searches_held (hs : mapLocked = true ∨ 0 < s.depth) : ∀ {found : List Search},
    searches map mapLocked found s = some (entry, s') → s' = s
  | .entry :: _, h => by
    cases h
    rfl
  | .noRoom :: _, h => by
    cases h
    rfl
  | .noGap :: rest, h => by
    rw [searches] at h
    split at h
    next =>
      cases h
      rfl
    next hwait =>
      have hlocked : mapLocked = false := by
        cases mapLocked with
        | false => rfl
        | true => exact absurd rfl hwait
      have hd : 0 < s.depth := hs.resolve_left (by rw [hlocked]; decide)
      rw [Held.unlock_lock hd] at h
      exact searches_held hs h

theorem findEntryAnywhere_held {found : List Search} (hm : splitMask mask map.maxOffset ≠ none)
    (h : findEntryAnywhere map mapLocked mask found s = some (entry, s')) :
    s' = if mapLocked then s else s.lock := by
  unfold findEntryAnywhere at h
  split at h
  next hnone => exact absurd hnone hm
  next =>
    refine searches_held ?_ h
    cases mapLocked with
    | true => exact .inl rfl
    | false => exact .inr (Nat.succ_pos _)

theorem findEntryAnywhere_true {found : List Search}
    (h : findEntryAnywhere map true mask found s = some (entry, s')) : s' = s := by
  cases hm : splitMask mask map.maxOffset with
  | none =>
    rw [findEntryAnywhere, hm] at h
    cases h
    rfl
  | some _ => exact findEntryAnywhere_held (by rw [hm]; exact nofun) h

theorem splitMask_zero (maxOffset : BitVec 64) : splitMask 0 maxOffset ≠ none := by
  exact nofun

theorem pageable_unlock (w : Wiring) (s : Held) : (pageable w s.lock).unlock = s := by
  unfold pageable
  split <;> simp

theorem place_held (a : Enter) (s : Held) : (a.place s.lock).2 = s := by
  unfold Enter.place
  split
  · exact s.lock_unlock
  split
  · exact s.lock_unlock
  · exact pageable_unlock _ s

theorem enter_balanced {a : Enter}
    (hm : a.size = 0 ∨ a.anywhere = false ∨ splitMask a.mask map.maxOffset ≠ none) :
    Balanced (enter map a) := by
  intro s r s' h
  unfold enter at h
  split at h
  · cases h
    rfl
  next hsize =>
    split at h
    next hany =>
      have hgood := (hm.resolve_left hsize).resolve_left (by rw [hany]; decide)
      obtain ⟨⟨entry, s1⟩, hfind, h⟩ := map_eq_some_iff.mp h
      obtain rfl : s1 = s.lock := findEntryAnywhere_held hgood hfind
      cases entry with
      | true => exact (congrArg Prod.snd h).symm.trans (place_held a s)
      | false => exact (congrArg Prod.snd h).symm.trans s.lock_unlock
    next =>
      split at h
      · cases h
        rfl
      have hunlock : ∀ {r'}, some (r', s.lock.unlock) = some (r, s') → s' = s := by
        intro r' h
        cases h
        exact s.lock_unlock
      simp only at h
      split at h
      · exact hunlock h
      split at h
      · exact hunlock h
      split at h
      · exact hunlock h
      · exact (congrArg Prod.snd (Option.some.inj h)).symm.trans (place_held a s)

theorem continuations_held (conts : List Bool) (s : Held) : (continuations conts s.lock).2 = s.lock := by
  induction conts with
  | nil => rfl
  | cons ok rest ih =>
    cases ok with
    | true => rw [continuations, s.lock_unlock, ih]
    | false => rw [continuations, s.lock_unlock]

theorem entryWaits_held (n : Nat) (s : Held) : entryWaits n s.lock = s.lock := by
  induction n with
  | zero => rfl
  | succ n ih => rw [entryWaits, s.lock_unlock, ih]

theorem copyoutPageList_balanced (p : PageList) : Balanced (copyoutPageList map p) := by
  intro s r s' h
  obtain ⟨⟨entry, s1⟩, hfind, h⟩ := map_eq_some_iff.mp h
  obtain rfl : s1 = s.lock := findEntryAnywhere_true hfind
  cases entry with
  | false => exact (congrArg Prod.snd h).symm.trans s.lock_unlock
  | true =>
    have hconts := continuations_held p.conts s
    simp only [if_true] at h
    split at h
    next s2 heq =>
      rw [heq] at hconts
      cases h
      rw [show s2 = s.lock from hconts, s.lock_unlock]
    next s2 heq =>
      rw [heq] at hconts
      cases h
      rw [show s2 = s.lock from hconts, entryWaits_held, s.lock_unlock]

theorem copyout_balanced (copy : Copy) : Balanced (copyout map copy) := by
  cases copy with
  | null =>
    intro s r s' h
    cases h
    rfl
  | object size a => exact enter_balanced (.inr (.inr (splitMask_zero _)))
  | pageList p => exact copyoutPageList_balanced p
  | entryList found wiring =>
    intro s r s' h
    obtain ⟨⟨entry, s1⟩, hfind, h⟩ := map_eq_some_iff.mp h
    obtain rfl : s1 = s.lock := findEntryAnywhere_held (splitMask_zero _) hfind
    cases entry with
    | false => exact (congrArg Prod.snd h).symm.trans s.lock_unlock
    | true =>
      cases wiring with
      | none => exact (congrArg Prod.snd h).symm.trans s.lock_unlock
      | some w => exact (congrArg Prod.snd h).symm.trans (pageable_unlock w s)

end

/-- **Every call is balanced on every path, but for `vm_map_enter` under a bad mask.** -/
theorem balanced_iff (c : Call) : Balanced (c.run map) ↔ ¬ c.BadMask map := by
  constructor
  · intro hbal hbad
    cases c with
    | enter a =>
      obtain ⟨hsize, hany, hm⟩ := hbad
      let s : Held := ⟨0, 0, 0⟩
      have hrun : enter map a s = some (.noSpace, s.unlock) := by
        rw [enter, if_neg hsize, if_pos hany, findEntryAnywhere, hm]
        rfl
      exact s.unlock_ne (hbal s _ _ hrun)
    | _ => exact hbad
  · intro hgood
    cases c with
    | enter a =>
      refine enter_balanced ?_
      by_contra hcon
      push Not at hcon
      exact hgood ⟨hcon.1, Bool.not_eq_false _ ▸ hcon.2.1, hcon.2.2⟩
    | findEntry mask found =>
      intro s r s' h
      obtain ⟨⟨entry, s1⟩, hfind, h⟩ := map_eq_some_iff.mp h
      exact (congrArg Prod.snd h).symm.trans (findEntryAnywhere_true hfind)
    | copyout copy => exact copyout_balanced copy
    | copyoutPageList p => exact copyoutPageList_balanced p

/-- Mask 5 has a gap between its bits: the map is unlocked without having been locked. -/
theorem enter_strays : enter ⟨0, 0x8000, false⟩
    ⟨0, 0x1000, 5, true, [], false, false, false, none⟩ ⟨0, 0, 0⟩ =
      some (.noSpace, ⟨0, -1, 1⟩) := by
  decide

end Mach.Vm.MapLock
