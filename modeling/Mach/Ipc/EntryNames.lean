import Mathlib.Data.Finset.Max
import Mach.Ipc.EntryInv

/-!
# The names a space hands out

Two properties of the entries of a space, both as far as they hold: a name that
`ipc_entry_alloc` returns is legal, fresh and denotes the entry that was returned, and
the space represents what it should. They fail together, once the bitmaps of the
radix tree have given up every name of 32 bits although almost all of them are free:
then `rdxtree_insert_alloc` returns the key 2³², which becomes the name 0.
-/

namespace Mach.Ipc.Entries

open Kern.Radix Lib.LinkedList Function Nat List
open Lib (anyStep)

/-! ## Names -/

/-- The name `a.name` that was returned is legal, did not denote an entry in use
before, and denotes the returned entry as soon as that has a type. -/
structure NameOk (s : State) (a : Alloc) : Prop where
  valid : nameValid a.name ∧ a.name < 2 ^ 32
  unused : ∀ e, s.space.isMap.lookup a.name = some e → e ∉ s.inUse
  found : ∀ x : Entry, x.type ≠ 0 → ipcEntryLookup
    { a.space with heap := update a.space.heap a.entry x } a.name = some a.entry

theorem lookup_typed {s : Space} {name e : Nat} {x : Entry} (hx : x.type ≠ 0) :
    ipcEntryLookup { s with heap := update s.heap e x } name = some e ↔
      s.isMap.lookup name = some e := by
  unfold ipcEntryLookup
  rw [Option.filter_eq_some_iff]
  constructor
  · exact fun h => h.1
  · intro h
    refine ⟨h, ?_⟩
    simp [hx]

theorem exists_typed : ∃ x : Entry, x.type ≠ 0 := ⟨⟨0, 2 ^ 16, 0, 0⟩, by decide⟩

/-- **Legal and fresh names**, exactly as far as they are: when `ipc_entry_alloc`
succeeds, its name is as it should be if and only if there was an entry to reuse or
the bitmaps offered a name. -/
theorem nameOk_iff_canName {s : State} {fresh avail : Nat} (hr : lts.Reach findsName s)
    (hfresh : fresh ∉ s.allocated) (hz : fresh ≠ zeroEntry)
    (hk : (ipcEntryAlloc s.space fresh avail).kr = .success) :
    NameOk s (ipcEntryAlloc s.space fresh avail) ↔ canName s.space := by
  have hI := Inv.reach hr
  have hw := hI.mapped.wf
  rcases alloc_cases hI fresh avail with ⟨hne, -⟩ | ⟨space, name, e, hget, ha⟩ |
    ⟨hempty, h0, key, map, hnext, hk64, hins, ha⟩
  · exact absurd hk hne
  · -- an entry from the free list
    obtain ⟨l, hl⟩ := hI.free
    rw [ha]
    obtain ⟨hne, hget⟩ := Option.ite_none_left_eq_some.mp hget
    cases hget
    have hsame : ∀ e, e ≠ s.space.isFreeList → s.space.heap e = s.space.heap e := fun _ _ => rfl
    obtain ⟨hmem, hu⟩ := (hl.pop hne hsame).1
    obtain ⟨hv, hlt, hlook⟩ := hI.mapped.stored _ hmem
    refine ⟨fun _ => .inl hne, fun _ => ⟨⟨hv, hlt⟩, fun x hx => ?_, fun x hx =>
      (lookup_typed hx).mpr hlook⟩⟩
    rw [show s.space.isMap.lookup (s.space.heap s.space.isFreeList).name = _ from hlook] at hx
    exact Option.some.inj hx ▸ hu
  · obtain ⟨hw', hfree, hlook, -⟩ := insert_success hw hk64 hins
    have hnew : ∀ k < 2 ^ 64, s.space.isMap.lookup k ≠ some fresh := by
      intro k hk hsome
      rcases hI.mapped.key k hk fresh hsome with ⟨-, hf⟩ | ⟨hf, -⟩
      · exact hz hf
      · exact hfresh hf
    have hmod : key % 2 ^ 32 < 2 ^ 32 := mod_lt _ (by decide)
    have hmod64 : key % 2 ^ 32 < 2 ^ 64 := lt_trans hmod (by decide)
    rw [ha]
    constructor
    · rintro ⟨⟨hv, hlt⟩, -, hfound⟩
      obtain ⟨x, hx⟩ := exists_typed
      have hl := (lookup_typed hx).mp (hfound x hx)
      -- the entry is only stored under the key, so the key is the name
      have hkey : key % 2 ^ 32 = key := by
        by_contra hne
        have hl' : map.lookup (key % 2 ^ 32) = some fresh := hl
        rw [hlook _ hmod64, if_neg hne] at hl'
        exact hnew _ hmod64 hl'
      rw [hkey] at hmod
      exact .inr ((hI.mapped.next_iff hnext).mp ⟨hkey ▸ hv, hmod⟩)
    · intro hcan
      obtain ⟨hv, hlt⟩ := (hI.mapped.next_iff hnext).mpr (hcan.resolve_left (not_not.mpr hempty))
      rw [mod_eq_of_lt hlt]
      refine ⟨⟨hv, hlt⟩, fun e he => ?_, fun x hx => (lookup_typed hx).mpr ?_⟩
      · rw [show s.space.isMap.lookup key = none from hfree] at he
        cases he
      · show map.lookup key = some fresh
        rw [hlook key hk64, if_pos rfl]

def blankState : State := ⟨ipcSpaceCreate fun _ => ⟨0, 0, 0, 0⟩, ∅, ∅⟩

theorem blankState_init : init blankState := ⟨_, rfl, rfl⟩

def fewNames : List Action := [.alloc 8 22, .allocName 4096 9 22, .dealloc 8]

def fewNamesState : State := (lts.run blankState fewNames).getD blankState

theorem fewNamesState_reach : lts.Reach findsName fewNamesState :=
  .run fewNames (.start blankState_init) ⟨.inr (.inl (by decide)), trivial, trivial, trivial⟩ rfl

/-- The first name of the space is 1, and it is used again. -/
theorem nameOk_iff_canName_again : (ipcEntryAlloc fewNamesState.space 10 22).kr = .success ∧
      (ipcEntryAlloc fewNamesState.space 10 22).name = 1 ∧
      NameOk fewNamesState (ipcEntryAlloc fewNamesState.space 10 22) :=
  ⟨rfl, rfl, (nameOk_iff_canName fewNamesState_reach (by decide) (by decide) rfl).mpr
    (.inl (by decide))⟩

/-! ## Representation -/

/-- What the fields of a space say of its entries. -/
structure Represented (s : State) : Prop where
  free : ∃ l, IsList 0 (fun e => (s.space.heap e).nextFree) s.space.isFreeList l ∧ l.Nodup ∧
    l.length = s.space.isFreeListSize ∧
    (∀ e ∈ l, s.space.isMap.lookup (s.space.heap e).name = some e ∧ (s.space.heap e).type = 0 ∧
      (s.space.heap e).object = 0) ∧
    -- the other entries of the map are those in use
    ∀ e, e ∈ s.inUse ↔ e ∉ l ∧ ∃ k < 2 ^ 64, k ≠ 0 ∧ s.space.isMap.lookup k = some e
  limit : s.space.isFreeListSize ≤ freeListSizeLimit
  size : s.space.isSize = s.inUse.card + 1
  /-- the search of `ipc_entry_alloc_name` ends at the entry -/
  search : ∀ k < 2 ^ 64, k ≠ 0 → ∀ e, s.space.isMap.lookup k = some e → e ∉ s.inUse →
    ∃ prev, findPrev 0 (fun e => (s.space.heap e).nextFree) e s.space.isFreeListSize none
      s.space.isFreeList = some prev
  /-- `mach_port_names` stays below the bound it allocated memory for -/
  names : (machPortNames s.space).length < s.space.isSize

variable {s : State} {n m : Nat}

theorem Inv.machPortNames_length (hI : Inv s) : (machPortNames s.space).length ≤ s.inUse.card := by
  have hcap : 64 ^ s.space.isMap.height ≤ 64 ^ 6 :=
    Nat.pow_le_pow_right (by decide) hI.mapped.height
  have hcap' : (64 : Nat) ^ 6 < 2 ^ 64 := by decide
  have hvisit : ∀ p ∈ s.space.isMap.visit, (s.space.heap p.2).type ≠ 0 →
      p.2 ∈ s.inUse ∧ (s.space.heap p.2).name = p.1 := by
    rintro ⟨k, e⟩ hmem ht
    have hk : k < 2 ^ 64 := by
      have := (mem_visitAt.mp hmem).2.1
      omega
    rcases hI.mapped.key k hk e ((mem_visit hk).mp hmem) with ⟨-, rfl⟩ | ⟨ha, hn⟩
    · exact absurd hI.zero ht
    · exact ⟨hI.inUse_of_type ha ht, hn⟩
  let es := (s.space.isMap.visit.filter fun p => (s.space.heap p.2).type ≠ 0).map Prod.snd
  have hnodup : es.Nodup := by
    rw [List.Nodup, pairwise_map]
    refine List.Pairwise.imp_of_mem (fun {p q} hp hq hlt heq => ?_)
      ((visit_sorted s.space.isMap).filter _)
    obtain ⟨hp, htp⟩ := mem_filter.mp hp
    obtain ⟨hq, htq⟩ := mem_filter.mp hq
    -- the same entry would stand under two keys, each of which is its name
    have hkeys : p.1 = q.1 := by
      rw [← (hvisit p hp (by simpa using htp)).2, ← (hvisit q hq (by simpa using htq)).2, heq]
    omega
  have hsub : ∀ e ∈ es, e ∈ s.inUse := by
    intro e he
    obtain ⟨p, hp, rfl⟩ := mem_map.mp he
    obtain ⟨hp, ht⟩ := mem_filter.mp hp
    exact (hvisit p hp (by simpa using ht)).1
  calc (machPortNames s.space).length = es.length := by simp only [machPortNames, es, length_map]
    _ = es.toFinset.card := (toFinset_card_of_nodup hnodup).symm
    _ ≤ s.inUse.card := Finset.card_le_card fun e he => hsub e (mem_toFinset.mp he)

theorem Inv.represented (hI : Inv s) : Represented s := by
  have hnames := hI.machPortNames_length
  have hsize := hI.size
  obtain ⟨l, hl⟩ := hI.free
  refine ⟨⟨l, hl.list, hl.nodup, hl.length, fun e he => ?_, fun e => ?_⟩, hI.limit, hsize,
    fun k hk hk0 e he hu => ?_, by omega⟩
  · obtain ⟨ha, -⟩ := (hl.mem e).mp he
    obtain ⟨hb, ho⟩ := hl.clean e he
    exact ⟨(hI.mapped.stored e ha).2.2, by simp [Entry.type, hb], ho⟩
  · constructor
    · intro hu
      obtain ⟨hv, hlt, hlook⟩ := hI.mapped.stored e (hI.sub hu)
      exact ⟨fun hm => ((hl.mem e).mp hm).2 hu, _, lt_trans hlt (by decide), hv.1, hlook⟩
    · rintro ⟨hm, k, hk, hk0, hlook⟩
      rcases hI.mapped.key k hk e hlook with ⟨h0, -⟩ | ⟨ha, -⟩
      · exact absurd h0 hk0
      · by_contra hu
        exact hm ((hl.mem e).mpr ⟨ha, hu⟩)
  · rcases hI.mapped.key k hk e he with ⟨h0, -⟩ | ⟨ha, -⟩
    · exact absurd h0 hk0
    · obtain ⟨prev, hfind, -⟩ := hI.unlink ha hu
      exact ⟨prev, hfind⟩

/-- **The representation invariant** holds in every state of a run in which the space
finds a name whenever it is asked for one. -/
theorem represented_of_findsName {s : State} (hr : lts.Reach findsName s) : Represented s :=
  (Inv.reach hr).represented

theorem represented_fewNames : fewNamesState.inUse = {9} ∧ fewNamesState.space.isFreeList = 8 ∧
    Represented fewNamesState :=
  ⟨rfl, rfl, represented_of_findsName fewNamesState_reach⟩

/-! ## A crowded space

Names chosen by a user can make the bitmaps give up all 32-bit names: 63 names under
each of the five levels below the root, for each of the four slots of the root that
names go to. -/

def fill : List Nat → Nat → Rdxtree Nat → Option (Rdxtree Nat)
  | [], _, map => some map
  | name :: names, e, map =>
    match map.insert name e 22 with
    | (.success, map) => fill names (e + 1) map
    | _ => none

structure Filled (s : State) (e : Nat) : Prop where
  reach : lts.Reach findsName s
  empty : s.space.isFreeList = 0
  below : ∀ a ∈ s.allocated, a < e

theorem Filled.allocName {map : Rdxtree Nat} (h : Filled s e) (he : zeroEntry < e)
    (hv : nameValid n) (hlt : n < 2 ^ 32) (hins : s.space.isMap.insert n e 22 = (.success, map)) :
    ∃ s', Filled s' (e + 1) ∧ s'.space.isMap = map := by
  have hI := Inv.reach h.reach
  obtain ⟨-, hfree, -⟩ := insert_success hI.mapped.wf (lt_trans hlt (by decide)) hins
  have h0 : e ≠ 0 := by omega
  have halloc : ipcEntryAllocName s.space n e 22 = ⟨.success, { s.space with
      isMap := map
      isSize := s.space.isSize + 1
      heap := update s.space.heap e ((s.space.heap e).blank n) }, n, e⟩ := by
    unfold ipcEntryAllocName
    rw [if_neg (not_not.mpr hI.active), hfree]
    simp only [if_neg h0, hins]
  have hfresh : e ∉ s.allocated := fun ha => lt_irrefl e (h.below e ha)
  have hstep : Entries.step s (.allocName n e 22) =
      some (s.obtain (ipcEntryAllocName s.space n e 22)) := by
    simp only [Entries.step, hfree]
    rw [if_neg]
    simpa [hfresh, ne_of_gt he, hv] using hlt
  rw [halloc] at hstep
  refine ⟨_, ⟨.next (a := .allocName n e 22) h.reach trivial hstep, h.empty, fun a ha => ?_⟩, rfl⟩
  rcases Finset.mem_insert.mp ha with rfl | ha
  · exact lt_succ_self a
  · exact lt_succ_of_lt (h.below a ha)

theorem Filled.fill {map : Rdxtree Nat} : ∀ (names : List Nat) {s : State} {e : Nat},
    Filled s e → zeroEntry < e → (∀ n ∈ names, nameValid n ∧ n < 2 ^ 32) →
    Entries.fill names e s.space.isMap = some map →
    ∃ s', Filled s' (e + names.length) ∧ s'.space.isMap = map
  | [], s, e, h, _, _, hfill => ⟨s, h, Option.some.inj hfill⟩
  | n :: names, s, e, h, he, hnames, hfill => by
    obtain ⟨hv, hlt⟩ := hnames n mem_cons_self
    rw [Entries.fill] at hfill
    split at hfill
    next hins =>
      obtain ⟨s', hs', rfl⟩ := h.allocName he hv hlt hins
      obtain ⟨u, hu, rfl⟩ := hs'.fill names (lt_succ_of_lt he)
        (fun m hm => hnames m (mem_cons_of_mem n hm)) hfill
      exact ⟨u, by rwa [length_cons, add_comm names.length, ← add_assoc], rfl⟩
    next => cases hfill

/-- The names that crowd slot `i` of the root, the lowest node last. -/
def slotNames (i : Nat) : List Nat :=
  [4, 3, 2, 1, 0].flatMap fun j => (List.range 63).map fun d => i * 64 ^ 5 + (d + 1) * 64 ^ j

def crowd : List Nat :=
  [1 * 64 ^ 5, 2 * 64 ^ 5, 3 * 64 ^ 5] ++ (List.range 4).flatMap slotNames

theorem crowd_length : crowd.length = 1263 := by decide +kernel

theorem crowd_valid : crowd.all (fun n => nameValid n ∧ n < 2 ^ 32) = true := by decide +kernel

set_option maxRecDepth 20000 in
theorem fill_crowd : (fill crowd 5 blankState.space.isMap).map (fun map =>
    let r := map.insertAlloc 1268 22
    (r.1, r.2.2, r.2.1.lookup 0)) = some (.success, 2 ^ 32, some zeroEntry) := by
  decide +kernel

/-- What `ipc_entry_alloc` does there: the new entry is stored under the key 2³², as
the name 0. -/
structure NullName (s : State) (fresh : Nat) (a : Alloc) : Prop where
  unused : fresh ∉ s.allocated ∧ fresh ≠ zeroEntry ∧ fresh ≠ 0
  returned : a.kr = .success ∧ a.name = 0 ∧ a.entry = fresh
  blank : a.space.heap fresh = (s.space.heap fresh).blank 0
  size : a.space.isFreeListSize = 0
  missing : a.space.isMap.lookup 0 ≠ some fresh

theorem exists_nullName : ∃ s fresh, lts.Reach findsName s ∧
    NullName s fresh (ipcEntryAlloc s.space fresh 22) := by
  obtain ⟨map, hfill, hnext⟩ := Option.map_eq_some_iff.mp fill_crowd
  obtain ⟨s, hs, rfl⟩ := Filled.fill crowd
    ⟨.start blankState_init, rfl, fun a ha => absurd ha (Finset.notMem_empty a)⟩ (by decide)
    (fun n hn => of_decide_eq_true (all_eq_true.mp crowd_valid n hn)) hfill
  rw [crowd_length] at hs
  have hI := Inv.reach hs.reach
  generalize hr : s.space.isMap.insertAlloc 1268 22 = r at hnext
  obtain ⟨err, map, key⟩ := r
  obtain ⟨rfl, hnext⟩ := Prod.mk.inj hnext
  obtain ⟨rfl, hzero⟩ := Prod.mk.inj hnext
  have halloc : ipcEntryAlloc s.space 1268 22 = ⟨.success, { s.space with
      isMap := map
      isSize := s.space.isSize + 1
      heap := update s.space.heap 1268 ((s.space.heap 1268).blank 0) }, 0, 1268⟩ := by
    unfold ipcEntryAlloc
    rw [if_neg (not_not.mpr hI.active), ipcEntryGet, if_pos hs.empty, hr]
    rfl
  refine ⟨s, 1268, hs.reach, ?_⟩
  rw [halloc]
  refine ⟨⟨fun ha => lt_irrefl 1268 (hs.below 1268 ha), by decide, by decide⟩, ⟨rfl, rfl, rfl⟩,
    ?_, ?_, ?_⟩
  · simp only [update_self]
  · obtain ⟨l, hl⟩ := hI.free
    show s.space.isFreeListSize = 0
    rw [← hl.length, hl.list.eq_nil.mp hs.empty, length_nil]
  · rw [hzero]
    decide

/-- A space with 1263 names whose next name is `MACH_PORT_NAME_NULL`. -/
theorem nullName_returned : ∃ s fresh, lts.Reach anyStep s ∧ fresh ∉ s.allocated ∧
    fresh ≠ zeroEntry ∧ (ipcEntryAlloc s.space fresh 22).kr = .success ∧
    (ipcEntryAlloc s.space fresh 22).name = 0 ∧ ¬ NameOk s (ipcEntryAlloc s.space fresh 22) := by
  obtain ⟨s, fresh, hr, h⟩ := exists_nullName
  obtain ⟨hkr, hname, -⟩ := h.returned
  exact ⟨s, fresh, hr.any, h.unused.1, h.unused.2.1, hkr, hname, fun hok => hok.valid.1.1 hname⟩

/-- Deallocated, that entry is on the free list under a name that is not its own. -/
theorem nullName_freed : ∃ s, lts.Reach anyStep s ∧ ¬ Represented s := by
  obtain ⟨s, fresh, hr, h⟩ := exists_nullName
  obtain ⟨hfresh, hz, h0⟩ := h.unused
  obtain ⟨hkr, -, hentry⟩ := h.returned
  generalize ha : ipcEntryAlloc s.space fresh 22 = a at h hkr hentry
  have halloc : lts.step s (.alloc fresh 22) =
      some ⟨a.space, insert fresh s.allocated, insert fresh s.inUse⟩ := by
    show Entries.step s (.alloc fresh 22) = _
    rw [Entries.step, if_neg (by simp [hfresh, hz]), ha, State.obtain, hkr, hentry]
  have hsize : a.space.isFreeListSize < freeListSizeLimit := by rw [h.size]; decide
  have hdealloc : lts.step ⟨a.space, insert fresh s.allocated, insert fresh s.inUse⟩
      (.dealloc fresh) = some ⟨ipcEntryDealloc a.space 0 fresh, insert fresh s.allocated,
        (insert fresh s.inUse).erase fresh⟩ := by
    show Entries.step _ (.dealloc fresh) = _
    simp only [Entries.step, h.blank]
    rw [if_neg (by simp [Entry.blank, Entry.setRequest, Entry.request])]
    simp [hsize, Entry.blank]
  refine ⟨_, .next (.next hr.any trivial halloc) trivial hdealloc, fun hrep => ?_⟩
  obtain ⟨l, hlist, -, -, hstored, -⟩ := hrep.free
  rw [ipcEntryDealloc, if_pos hsize] at hlist hstored
  cases l with
  | nil => exact h0 hlist
  | cons x xs =>
    obtain ⟨rfl, -⟩ := hlist
    have hlook : a.space.isMap.lookup (update a.space.heap fresh _ fresh).name =
        some fresh := (hstored _ mem_cons_self).1
    rw [update_self, h.blank] at hlook
    exact h.missing hlook

end Mach.Ipc.Entries
