import Mach.Ipc.EntryTable

/-!
# The representation invariant of a space

`Mapped` says that the radix tree holds the zeroth entry and exactly the allocated
ones, each under its own name; `FreeList`, that the free list runs through exactly the
allocated entries that are not in use. Together with the count of the entries in
use these make up `Inv`, which every step keeps, as long as `ipc_entry_alloc` is not
made to hand out a key that is no name (`canName`).
-/

namespace Mach.Ipc.Entries

open Kern.Radix Lib.LinkedList Function List Option Finset Nat

/-! ## The map -/

structure Mapped (map : Rdxtree Nat) (name : Nat → Nat) (allocated : Finset Nat) : Prop where
  wf : map.WF
  height : map.height ≤ 6
  zero : map.lookup 0 = some zeroEntry
  key : ∀ k < 2 ^ 64, ∀ e, map.lookup k = some e →
    (k = 0 ∧ e = zeroEntry) ∨ (e ∈ allocated ∧ name e = k)
  stored : ∀ e ∈ allocated, nameValid (name e) ∧ name e < 2 ^ 32 ∧ map.lookup (name e) = some e
  proper : zeroEntry ∉ allocated ∧ 0 ∉ allocated

variable {map : Rdxtree Nat} {name : Nat → Nat} {allocated : Finset Nat}
  {key avail e head size : Nat} {heap heap' : Nat → Entry} {free : Nat → Prop} {l : List Nat}
  {s : State}

section

variable (h : Mapped map name allocated)
include h

theorem Mapped.congr {name' : Nat → Nat} (hn : ∀ e ∈ allocated, name' e = name e) :
    Mapped map name' allocated := by
  refine ⟨h.wf, h.height, h.zero, fun k hk e he => ?_, fun e he => ?_, h.proper⟩
  · rcases h.key k hk e he with hz | ⟨ha, hk'⟩
    · exact .inl hz
    · exact .inr ⟨ha, (hn e ha).trans hk'⟩
  · rw [hn e he]
    exact h.stored e he

theorem Mapped.insert {map' : Rdxtree Nat} {name' : Nat → Nat} {fresh : Nat} (hk : nameValid key) (hk' : key < 2 ^ 32)
    (hins : map.insert key fresh avail = (.success, map')) (hfresh : fresh ∉ allocated)
    (h0 : fresh ≠ 0) (hz : fresh ≠ zeroEntry) (hname : name' fresh = key)
    (hn : ∀ e ∈ allocated, name' e = name e) : Mapped map' name' (insert fresh allocated) := by
  have hk64 : key < 2 ^ 64 := lt_trans hk' (by decide)
  obtain ⟨hwf, hfree, hlookup, hheight⟩ := insert_success h.wf hk64 hins
  refine ⟨hwf, hheight 6 h.height (lt_of_lt_of_le hk' (by decide)), ?_, fun k hk e he => ?_,
    fun e he => ?_, ?_, ?_⟩
  · rw [hlookup 0 (by decide), if_neg (Ne.symm hk.1), h.zero]
  · rw [hlookup k hk] at he
    split at he
    next hkey =>
      cases he
      exact .inr ⟨Finset.mem_insert_self .., hname.trans hkey.symm⟩
    next =>
      rcases h.key k hk e he with hz | ⟨ha, hk'⟩
      · exact .inl hz
      · exact .inr ⟨Finset.mem_insert_of_mem ha, (hn e ha).trans hk'⟩
  · rcases mem_insert.mp he with rfl | ha
    · rw [hname, hlookup key hk64, if_pos rfl]
      exact ⟨hk, hk', rfl⟩
    · obtain ⟨hv, hlt, hl⟩ := h.stored e ha
      rw [hn e ha]
      refine ⟨hv, hlt, ?_⟩
      have hne : name e ≠ key := fun heq => by
        rw [heq, hfree] at hl
        cases hl
      rw [hlookup _ (lt_trans hlt (by decide)), if_neg hne, hl]
  · rw [mem_insert, not_or]
    exact ⟨Ne.symm hz, h.proper.1⟩
  · rw [mem_insert, not_or]
    exact ⟨Ne.symm h0, h.proper.2⟩

theorem Mapped.remove (he : e ∈ allocated) :
    Mapped (map.remove (name e)).2 name (allocated.erase e) := by
  obtain ⟨hv, hlt, hl⟩ := h.stored e he
  have hk : name e < 2 ^ 64 := lt_trans hlt (by decide)
  obtain ⟨⟨v, map'⟩, hr⟩ : ∃ r, map.remove (name e) = r := ⟨_, rfl⟩
  cases v with
  | none =>
    have := (remove_none hk hr).2
    rw [hl] at this
    cases this
  | some v =>
    obtain ⟨hwf, -, hlookup, hheight⟩ := remove_some h.wf hk hr
    rw [hr]
    refine ⟨hwf, hheight.trans h.height, ?_, fun k hk' x hx => ?_, fun x hx => ?_, ?_, ?_⟩
    · rw [hlookup 0 (by decide), if_neg (Ne.symm hv.1), h.zero]
    · rw [hlookup k hk'] at hx
      obtain ⟨hne, hx⟩ := ite_none_left_eq_some.mp hx
      rcases h.key k hk' x hx with hz | ⟨ha, hxk⟩
      · exact .inl hz
      · refine .inr ⟨mem_erase.mpr ⟨fun hxe => hne ?_, ha⟩, hxk⟩
        rw [← hxk, hxe]
    · obtain ⟨hxe, ha⟩ := mem_erase.mp hx
      obtain ⟨hv', hlt', hl'⟩ := h.stored x ha
      refine ⟨hv', hlt', ?_⟩
      -- two entries never share a name
      have hne : name x ≠ name e := fun heq => by
        rw [heq, hl] at hl'
        exact hxe (Option.some.inj hl').symm
      rw [hlookup _ (lt_trans hlt' (by decide)), if_neg hne, hl']
    · exact fun hm => h.proper.1 (Finset.mem_of_mem_erase hm)
    · exact fun hm => h.proper.2 (Finset.mem_of_mem_erase hm)

end

/-! ## The free list -/

/-- The free list of length `size` goes through the entries `free`. -/
structure FreeList (heap : Nat → Entry) (head size : Nat) (free : Nat → Prop) (l : List Nat) :
    Prop where
  list : IsList 0 (fun e => (heap e).nextFree) head l
  nodup : l.Nodup
  length : l.length = size
  mem : ∀ e, e ∈ l ↔ free e
  clean : ∀ e ∈ l, (heap e).bits = 0 ∧ (heap e).object = 0

section

variable (h : FreeList heap head size free l)
include h

theorem FreeList.congr {free' : Nat → Prop}
    (hh : ∀ e, free e → heap' e = heap e) (hf : ∀ e, free' e ↔ free e) :
    FreeList heap' head size free' l := by
  have hl : ∀ e ∈ l, heap' e = heap e := fun e he => hh e ((h.mem e).mp he)
  refine ⟨h.list.congr fun e he => by rw [hl e he], h.nodup, h.length,
    fun e => (h.mem e).trans (hf e).symm, fun e he => ?_⟩
  rw [hl e he]
  exact h.clean e he

theorem FreeList.pop (h0 : head ≠ 0) (hh : ∀ e, e ≠ head → heap' e = heap e) :
    free head ∧ FreeList heap' (heap head).nextFree (size - 1) (fun e => free e ∧ e ≠ head)
      l.tail := by
  cases l with
  | nil => exact absurd (h.list.eq_nil.mpr rfl) h0
  | cons x xs =>
    obtain ⟨rfl, -, hrest⟩ := h.list
    obtain ⟨hx, hnodup⟩ := nodup_cons.mp h.nodup
    have hxs : ∀ e ∈ xs, heap' e = heap e := fun e he => hh e fun heq => hx (heq ▸ he)
    refine ⟨(h.mem head).mp List.mem_cons_self, hrest.congr fun e he => by rw [hxs e he], hnodup,
      ?_, fun e => ?_, fun e he => ?_⟩
    · have := h.length
      simp only [length_cons] at this
      simp only [tail_cons]
      omega
    · rw [← h.mem e, List.mem_cons]
      exact ⟨fun he => ⟨.inr he, fun heq => hx (heq ▸ he)⟩, fun ⟨he, hne⟩ => he.resolve_left hne⟩
    · rw [hxs e he]
      exact h.clean e (List.mem_cons_of_mem _ he)

theorem FreeList.push (he : ¬ free e) (h0 : e ≠ 0)
    (hnew : (heap' e).nextFree = head ∧ (heap' e).bits = 0 ∧ (heap' e).object = 0)
    (hh : ∀ x, x ≠ e → heap' x = heap x) :
    FreeList heap' e (size + 1) (fun x => free x ∨ x = e) (e :: l) := by
  have hnot : e ∉ l := fun hm => he ((h.mem e).mp hm)
  have hl : ∀ x ∈ l, heap' x = heap x := fun x hx => hh x fun heq => hnot (heq ▸ hx)
  refine ⟨⟨rfl, h0, ?_⟩, nodup_cons.mpr ⟨hnot, h.nodup⟩, by rw [length_cons, h.length],
    fun x => ?_, fun x hx => ?_⟩
  · show Seg 0 _ (heap' e).nextFree l 0
    rw [hnew.1]
    exact h.list.congr fun x hx => by rw [hl x hx]
  · rw [List.mem_cons, h.mem x, or_comm]
  · rcases List.mem_cons.mp hx with rfl | hx
    · exact hnew.2
    · rw [hl x hx]
      exact h.clean x hx

end

theorem unlinkFree_fields (s : Space) (prev : Option Nat) (e x : Nat) :
    ((unlinkFree s prev e).heap x).name = (s.heap x).name ∧
    ((unlinkFree s prev e).heap x).bits = (s.heap x).bits ∧
    ((unlinkFree s prev e).heap x).object = (s.heap x).object := by
  unfold unlinkFree
  cases prev with
  | none => exact ⟨rfl, rfl, rfl⟩
  | some p =>
    by_cases hx : x = p
    · subst hx
      simp
    · simp [update_of_ne hx]

theorem FreeList.unlink {s : Space} (h : FreeList s.heap s.isFreeList s.isFreeListSize free l)
    (he : free e) :
    ∃ prev, findPrev 0 (fun e => (s.heap e).nextFree) e s.isFreeListSize none s.isFreeList =
        some prev ∧ (∀ x, ¬ free x → (unlinkFree s prev e).heap x = s.heap x) ∧
      ∃ l', ∀ heap', (∀ x, x ≠ e → heap' x = (unlinkFree s prev e).heap x) →
        FreeList heap' (unlinkFree s prev e).isFreeList (s.isFreeListSize - 1)
          (fun x => free x ∧ x ≠ e) l' := by
  obtain ⟨before, after, rfl⟩ := append_of_mem ((h.mem e).mpr he)
  obtain ⟨hnb, hna, hdisj⟩ := nodup_append.mp h.nodup
  obtain ⟨hea, hnafter⟩ := nodup_cons.mp hna
  have heb : e ∉ before := fun hm => hdisj e hm e List.mem_cons_self rfl
  have hfind : findPrev 0 (fun e => (s.heap e).nextFree) e s.isFreeListSize none s.isFreeList =
      some (before.getLast?.or none) := findPrev_eq h.list heb (le_of_eq h.length)
  -- what is left is the list without `e`, whichever entry stands before it
  have hmem : ∀ x, x ∈ before ++ after ↔ free x ∧ x ≠ e := by
    intro x
    rw [← h.mem x]
    simp only [mem_append, List.mem_cons]
    constructor
    · rintro (hx | hx)
      · exact ⟨.inl hx, fun heq => heb (heq ▸ hx)⟩
      · exact ⟨.inr (.inr hx), fun heq => hea (heq ▸ hx)⟩
    · rintro ⟨hx | hx | hx, hne⟩
      · exact .inl hx
      · exact absurd hx hne
      · exact .inr hx
  have hnodup : (before ++ after).Nodup :=
    nodup_append.mpr ⟨hnb, hnafter, fun x hx y hy => hdisj x hx y (List.mem_cons_of_mem _ hy)⟩
  have hlen : (before ++ after).length = s.isFreeListSize - 1 := by
    have := h.length
    simp only [length_append, length_cons] at this ⊢
    omega
  have hclean : ∀ (prev : Option Nat) (heap' : Nat → Entry), (∀ x, x ≠ e → heap' x = (unlinkFree s prev e).heap x) →
      ∀ x ∈ before ++ after, (heap' x).bits = 0 ∧ (heap' x).object = 0 := by
    intro prev heap' hh x hx
    obtain ⟨hfree, hne⟩ := (hmem x).mp hx
    obtain ⟨-, hb, ho⟩ := unlinkFree_fields s prev e x
    rw [hh x hne, hb, ho]
    exact h.clean x ((h.mem x).mpr hfree)
  refine ⟨_, hfind, ?_, before ++ after, fun heap' hh => ⟨?_, hnodup, hlen, hmem, hclean _ _ hh⟩⟩
  · intro x hx
    cases hlast : before.getLast? with
    | none => rfl
    | some p =>
      have hp : p ∈ before := mem_of_getLast? hlast
      refine update_of_ne (fun heq => hx ?_) ..
      exact (h.mem x).mp (mem_append_left _ (heq ▸ hp))
  · rcases eq_nil_or_concat before with rfl | ⟨front, p, rfl⟩
    · obtain ⟨hhead, -, hrest⟩ := h.list
      exact hrest.congr fun x hx => by rw [hh x fun heq => hea (heq ▸ hx)]; rfl
    · have hp : p ≠ e := fun heq => heb (by simp [heq])
      have hprev : (List.concat front p).getLast?.or none = some p := by simp
      rw [hprev] at hh ⊢
      have hlist := h.list
      have hnd := h.nodup
      simp only [concat_eq_append, append_assoc, singleton_append] at hlist hnd ⊢
      refine hlist.unlink hnd ?_ fun x hxp hxe => ?_
      · rw [hh p hp]
        simp [unlinkFree, Entry.nextFree]
      · rw [hh x hxe]
        simp [unlinkFree, update_of_ne hxp]

/-! ## The invariant -/

structure Inv (s : State) : Prop where
  active : s.space.isActive
  mapped : Mapped s.space.isMap (fun e => (s.space.heap e).name) s.allocated
  free : ∃ l, FreeList s.space.heap s.space.isFreeList s.space.isFreeListSize
    (fun e => e ∈ s.allocated ∧ e ∉ s.inUse) l
  limit : s.space.isFreeListSize ≤ freeListSizeLimit
  sub : s.inUse ⊆ s.allocated
  size : s.space.isSize = s.inUse.card + 1
  zero : (s.space.heap zeroEntry).type = 0

theorem Inv.init (h : Entries.init s) : Inv s := by
  obtain ⟨heap, hz, rfl⟩ := h
  refine ⟨rfl, ?_, ⟨[], rfl, .nil, rfl, by simp, nofun⟩, zero_le _, fun _ h => h, rfl, ?_⟩
  · rw [show (ipcSpaceCreate heap).isMap = ⟨0, some zeroEntry⟩ from rfl]
    refine ⟨⟨fun _ _ => trivial, fun _ _ => trivial, nofun, zero_le _⟩, zero_le _, rfl,
      fun k hk e he => .inl ?_, nofun, by simp⟩
    rw [lookup_eq hk] at he
    split at he
    next hlt => exact ⟨lt_one_iff.mp hlt, (Option.some.inj he).symm⟩
    next => cases he
  · show (heap zeroEntry).bits / 2 ^ 16 % 2 ^ 5 = 0
    simp [hz]

/-! ## The steps -/

/-- Where the bitmaps of the radix tree still offer a name: below height 6 any key is
one, and else one of the open keys has to be. -/
def mapCanName (map : Rdxtree Nat) : Prop :=
  map.height ≤ 5 ∨ ∃ n, nameValid n ∧ n < 2 ^ 32 ∧ map.Open n

/-- `ipc_entry_alloc` hands out a name: it reuses an entry, or the radix tree offers
a key that is one. -/
def canName (s : Space) : Prop := s.isFreeList ≠ 0 ∨ mapCanName s.isMap

theorem Mapped.next_pos (h : Mapped map name allocated) (hnext : map.Next key) : key ≠ 0 := by
  rintro rfl
  rcases hnext with ⟨hopen, -⟩ | ⟨-, hkey⟩
  · have := lookup_of_open (by decide) hopen
    rw [h.zero] at this
    cases this
  · have : 0 < 64 ^ map.height := Nat.pow_pos (by decide)
    omega

theorem Mapped.next_iff (h : Mapped map name allocated) (hnext : map.Next key) :
    (nameValid key ∧ key < 2 ^ 32) ↔ mapCanName map := by
  have hpos := h.next_pos hnext
  constructor
  · rintro ⟨hv, hlt⟩
    rcases hnext with ⟨hopen, -⟩ | ⟨-, rfl⟩
    · exact .inr ⟨key, hv, hlt, hopen⟩
    · refine .inl ?_
      by_contra hheight
      have : (64 : Nat) ^ 6 ≤ 64 ^ map.height := Nat.pow_le_pow_right (by decide) (by omega)
      exact absurd (this.trans hlt.le) (by decide)
  · intro hcan
    have hsmall : key < 2 ^ 32 - 1 := by
      rcases hcan with hheight | ⟨n, hv, hlt, hopen⟩
      · have hcap : 64 ^ map.height ≤ 64 ^ 5 := Nat.pow_le_pow_right (by decide) hheight
        have h5 : (64 : Nat) ^ 5 < 2 ^ 32 - 1 := by decide
        rcases hnext with ⟨⟨hk, -⟩, -⟩ | ⟨-, rfl⟩ <;> omega
      · rcases hnext with ⟨-, hleast⟩ | ⟨hnone, -⟩
        · have hle : key ≤ n := by
            by_contra hgt
            exact hleast n (by omega) hopen
          have := hv.2
          omega
        · exact absurd hopen (hnone n)
    exact ⟨⟨hpos, by omega⟩, by omega⟩

theorem ofErr_ne_success {e : Err} (h : e ≠ .success) : KernReturn.ofErr e ≠ .success := by
  cases e with
  | success => exact absurd rfl h
  | busy => exact nofun
  | nomem => exact nofun

section

variable (hI : Inv s)
include hI

theorem Inv.get {space : Space} {name : Nat} (h : ipcEntryGet s.space = some (space, name, e)) :
    Inv (s.obtain ⟨.success, space, name, e⟩) := by
  obtain ⟨h0, ⟨⟩⟩ := ite_none_left_eq_some.mp h
  obtain ⟨l, hl⟩ := hI.free
  generalize hhead : s.space.isFreeList = e at hl h0
  have hother : ∀ x, x ≠ e → update s.space.heap e
      ((s.space.heap e).setRequest 0) x = s.space.heap x :=
    fun x hx => update_of_ne hx ..
  obtain ⟨⟨ha, hu⟩, hl'⟩ := hl.pop h0 hother
  have hins : insert e s.allocated = s.allocated := insert_eq_of_mem ha
  refine ⟨hI.active, ?_, ⟨_, hl'.congr (fun _ _ => rfl) fun x => ?_⟩, ?_, ?_, ?_, ?_⟩
  · refine (hins.symm ▸ hI.mapped).congr fun x _ => ?_
    show (update s.space.heap e _ x).name = _
    by_cases hx : x = e
    · subst hx
      rw [update_self]
      rfl
    · rw [hother x hx]
  · show x ∈ insert e s.allocated ∧ x ∉ insert e s.inUse ↔ _
    rw [hins, mem_insert]
    tauto
  · exact le_trans (sub_le _ _) hI.limit
  · exact insert_subset_insert e hI.sub
  · show s.space.isSize + 1 = (insert e s.inUse).card + 1
    rw [card_insert_of_notMem hu, hI.size]
  · show (update s.space.heap e _ zeroEntry).type = 0
    rw [hother zeroEntry fun hz => hI.mapped.proper.1 (hz ▸ ha), hI.zero]

theorem Inv.fresh {fresh : Nat} (hv : nameValid key) (hlt : key < 2 ^ 32)
    (hins : s.space.isMap.insert key fresh avail = (.success, map)) (hfresh : fresh ∉ s.allocated)
    (h0 : fresh ≠ 0) (hz : fresh ≠ zeroEntry) :
    Inv (s.obtain ⟨.success, { s.space with
      isMap := map
      isSize := s.space.isSize + 1
      heap := update s.space.heap fresh ((s.space.heap fresh).blank key) }, key, fresh⟩) := by
  have hother : ∀ x, x ≠ fresh → update s.space.heap fresh
      ((s.space.heap fresh).blank key) x = s.space.heap x :=
    fun x hx => update_of_ne hx ..
  have hnew : ∀ x ∈ s.allocated, x ≠ fresh := fun x hx heq => hfresh (heq ▸ hx)
  have hu : fresh ∉ s.inUse := fun h => hfresh (hI.sub h)
  obtain ⟨l, hl⟩ := hI.free
  refine ⟨hI.active, ?_, ⟨l, ?_⟩, hI.limit, insert_subset_insert fresh hI.sub, ?_, ?_⟩
  · refine hI.mapped.insert hv hlt hins hfresh h0 hz ?_ fun x hx => ?_
    · show (update s.space.heap fresh _ fresh).name = key
      rw [update_self]
      rfl
    · show (update s.space.heap fresh _ x).name = _
      rw [hother x (hnew x hx)]
  · refine hl.congr (fun x hx => hother x (hnew x hx.1)) fun x => ?_
    show x ∈ insert fresh s.allocated ∧ x ∉ insert fresh s.inUse ↔ _
    rw [mem_insert, mem_insert, not_or]
    exact ⟨fun ⟨ha, hne, hu⟩ => ⟨ha.resolve_left hne, hu⟩, fun ⟨ha, hu⟩ => ⟨.inr ha, hnew x ha, hu⟩⟩
  · show s.space.isSize + 1 = (insert fresh s.inUse).card + 1
    rw [card_insert_of_notMem hu, hI.size]
  · show (update s.space.heap fresh _ zeroEntry).type = 0
    rw [hother zeroEntry (Ne.symm hz), hI.zero]

theorem Inv.fail {a : Alloc} (hk : a.kr ≠ .success) (hs : a.space = s.space) :
    Inv (s.obtain a) := by
  have hsame : s.obtain a = s := by
    unfold State.obtain
    split
    next h => exact absurd h hk
    next => rw [hs]
  rwa [hsame]

theorem alloc_cases (fresh avail : Nat) : ((ipcEntryAlloc s.space fresh avail).kr ≠ .success ∧
      (ipcEntryAlloc s.space fresh avail).space = s.space) ∨
    (∃ space name e, ipcEntryGet s.space = some (space, name, e) ∧
      ipcEntryAlloc s.space fresh avail = ⟨.success, space, name, e⟩) ∨
    (s.space.isFreeList = 0 ∧ fresh ≠ 0 ∧ ∃ key map, s.space.isMap.Next key ∧ key < 2 ^ 64 ∧
      s.space.isMap.insert key fresh avail = (.success, map) ∧
      ipcEntryAlloc s.space fresh avail = ⟨.success, { s.space with
        isMap := map
        isSize := s.space.isSize + 1
        heap := update s.space.heap fresh
          ((s.space.heap fresh).blank (key % 2 ^ 32)) }, key % 2 ^ 32, fresh⟩) := by
  unfold ipcEntryAlloc
  rw [if_neg (not_not.mpr hI.active)]
  cases hget : ipcEntryGet s.space with
  | some r => exact .inr (.inl ⟨r.1, r.2.1, r.2.2, rfl, rfl⟩)
  | none =>
    have hempty : s.space.isFreeList = 0 := by
      unfold ipcEntryGet at hget
      split at hget
      next h => exact h
      next => cases hget
    simp only
    split
    next => exact .inl ⟨nofun, rfl⟩
    next h0 =>
      obtain ⟨key, hk, hnext, heq⟩ := insertAlloc_eq hI.mapped.wf
        (le_trans hI.mapped.height (by decide)) fresh avail
      rw [heq]
      obtain ⟨⟨err, map⟩, hins⟩ : ∃ r, s.space.isMap.insert key fresh avail = r := ⟨_, rfl⟩
      rw [hins]
      by_cases herr : err = .success
      · subst herr
        exact .inr (.inr ⟨hempty, h0, key, map, hnext, hk, hins, rfl⟩)
      · obtain ⟨rfl, -⟩ := insert_fail hI.mapped.wf hk hins herr
        refine .inl ?_
        split
        next h => exact absurd (congrArg Prod.fst h) herr
        next h =>
          cases h
          exact ⟨ofErr_ne_success herr, rfl⟩

theorem Inv.alloc {fresh : Nat} (hcan : canName s.space) (hfresh : fresh ∉ s.allocated)
    (hz : fresh ≠ zeroEntry) : Inv (s.obtain (ipcEntryAlloc s.space fresh avail)) := by
  rcases alloc_cases hI fresh avail with ⟨hk, hs⟩ | ⟨space, name, e, hget, ha⟩ |
    ⟨hempty, h0, key, map, hnext, -, hins, ha⟩
  · exact hI.fail hk hs
  · rw [ha]
    exact hI.get hget
  · have hmap := hcan.resolve_left (not_not.mpr hempty)
    obtain ⟨hv, hlt⟩ := (hI.mapped.next_iff hnext).mpr hmap
    rw [ha, mod_eq_of_lt hlt]
    exact hI.fresh hv hlt hins hfresh h0 hz

theorem Inv.inUse_of_type (ha : e ∈ s.allocated) (ht : (s.space.heap e).type ≠ 0) :
    e ∈ s.inUse := by
  by_contra hu
  obtain ⟨l, hl⟩ := hI.free
  have hbits := (hl.clean e ((hl.mem e).mpr ⟨ha, hu⟩)).1
  rw [Entry.type, hbits] at ht
  exact ht rfl

theorem Inv.unlink (ha : e ∈ s.allocated) (hu : e ∉ s.inUse) :
    ∃ prev, findPrev 0 (fun e => (s.space.heap e).nextFree) e s.space.isFreeListSize none
        s.space.isFreeList = some prev ∧
      ∀ name, Inv (s.obtain ⟨.success, takeFree s.space prev e, name, e⟩) := by
  obtain ⟨l, hl⟩ := hI.free
  obtain ⟨prev, hfind, hsame, l', hl'⟩ := hl.unlink ⟨ha, hu⟩
  have hother : ∀ x, x ≠ e → (takeFree s.space prev e).heap x =
      (unlinkFree s.space prev e).heap x := fun x hx => update_of_ne hx ..
  have hname : ∀ x, ((takeFree s.space prev e).heap x).name = (s.space.heap x).name := by
    intro x
    rw [← (unlinkFree_fields s.space prev e x).1]
    by_cases hx : x = e
    · subst hx
      have hx : (takeFree s.space prev x).heap x =
          { (unlinkFree s.space prev x).heap x with bits := 0 }.setRequest 0 :=
        update_self ..
      rw [hx]
      rfl
    · rw [hother x hx]
  have hframe : (takeFree s.space prev e).isFreeListSize = s.space.isFreeListSize - 1 ∧
      (takeFree s.space prev e).isSize = s.space.isSize + 1 ∧
      (takeFree s.space prev e).isMap = s.space.isMap ∧
      (takeFree s.space prev e).isActive = s.space.isActive := by
    cases prev <;> exact ⟨rfl, rfl, rfl, rfl⟩
  obtain ⟨hsize, hcount, hmap, hact⟩ := hframe
  have hins : insert e s.allocated = s.allocated := insert_eq_of_mem ha
  have hz : zeroEntry ≠ e := fun hz => hI.mapped.proper.1 (hz ▸ ha)
  refine ⟨prev, hfind, fun name => ⟨hact.trans hI.active, ?_, ⟨l', ?_⟩, ?_,
    insert_subset_insert e hI.sub, ?_, ?_⟩⟩
  · show Mapped (takeFree s.space prev e).isMap _ (insert e s.allocated)
    rw [hins, hmap]
    exact hI.mapped.congr fun x _ => hname x
  · show FreeList _ _ (takeFree s.space prev e).isFreeListSize _ l'
    rw [hsize]
    refine (hl' _ hother).congr (fun _ _ => rfl) fun x => ?_
    show x ∈ insert e s.allocated ∧ x ∉ insert e s.inUse ↔ _
    rw [hins, mem_insert]
    tauto
  · show (takeFree s.space prev e).isFreeListSize ≤ freeListSizeLimit
    rw [hsize]
    exact le_trans (sub_le _ _) hI.limit
  · show (takeFree s.space prev e).isSize = (insert e s.inUse).card + 1
    rw [card_insert_of_notMem hu, hcount, hI.size]
  · show ((takeFree s.space prev e).heap zeroEntry).type = 0
    rw [hother zeroEntry hz, hsame zeroEntry fun h => hI.mapped.proper.1 h.1, hI.zero]

theorem Inv.allocName {name fresh : Nat} (hv : nameValid name) (hlt : name < 2 ^ 32)
    (hfresh : fresh ∉ s.allocated) (hz : fresh ≠ zeroEntry)
    (hpend : ∀ e ∈ s.space.isMap.lookup name, ¬ s.pending e) :
    Inv (s.obtain (ipcEntryAllocName s.space name fresh avail)) := by
  have hk : name < 2 ^ 64 := lt_trans hlt (by decide)
  unfold ipcEntryAllocName
  rw [if_neg (not_not.mpr hI.active)]
  cases hl : s.space.isMap.lookup name with
  | none =>
    simp only
    split
    next => exact hI.fail (by simp) rfl
    next h0 =>
      obtain ⟨⟨err, map⟩, hins⟩ : ∃ r, s.space.isMap.insert name fresh avail = r := ⟨_, rfl⟩
      rw [hins]
      by_cases herr : err = .success
      · subst herr
        exact hI.fresh hv hlt hins hfresh h0 hz
      · obtain ⟨rfl, -⟩ := insert_fail hI.mapped.wf hk hins herr
        split
        next h => exact absurd (congrArg Prod.fst h) herr
        next h =>
          cases h
          exact hI.fail (ofErr_ne_success herr) rfl
  | some e =>
    have ha : e ∈ s.allocated := by
      rcases hI.mapped.key name hk e hl with ⟨h0, -⟩ | ⟨ha, -⟩
      · exact absurd h0 hv.1
      · exact ha
    simp only
    split
    next ht =>
      have hu := hI.inUse_of_type ha ht
      have hsame : s.obtain ⟨.success, s.space, name, e⟩ = s := by
        show State.mk s.space (insert e s.allocated) (insert e s.inUse) = s
        rw [insert_eq_of_mem ha, insert_eq_of_mem hu]
      rwa [hsame]
    next ht =>
      have hu : e ∉ s.inUse := fun hu => hpend e hl ⟨hu, not_not.mp ht⟩
      obtain ⟨prev, hfind, hnext⟩ := hI.unlink ha hu
      rw [hfind]
      exact hnext name

theorem Inv.dealloc (hu : e ∈ s.inUse) (hobj : (s.space.heap e).object = 0) :
    Inv ⟨ipcEntryDealloc s.space (s.space.heap e).name e,
      if ¬ s.space.isFreeListSize < freeListSizeLimit then s.allocated.erase e else s.allocated,
      s.inUse.erase e⟩ := by
  have ha := hI.sub hu
  have hcard := card_erase_of_mem hu
  have hpos : 0 < s.inUse.card := card_pos.mpr ⟨e, hu⟩
  have hsize := hI.size
  obtain ⟨l, hl⟩ := hI.free
  unfold ipcEntryDealloc
  by_cases hfull : s.space.isFreeListSize < freeListSizeLimit
  · rw [if_pos hfull, if_neg (not_not.mpr hfull)]
    have hother : ∀ x, x ≠ e → update s.space.heap e
        { s.space.heap e with bits := 0, index := s.space.isFreeList } x = s.space.heap x :=
      fun x hx => update_of_ne hx ..
    refine ⟨hI.active, ?_, ⟨e :: l, ?_⟩, hfull, fun x hx => hI.sub (Finset.mem_of_mem_erase hx), ?_,
      ?_⟩
    · refine hI.mapped.congr fun x _ => ?_
      show (update s.space.heap e _ x).name = _
      by_cases hx : x = e
      · subst hx
        rw [update_self]
      · rw [hother x hx]
    · have hpush := hl.push (fun h => h.2 hu) (fun h => hI.mapped.proper.2 (h ▸ ha))
        (by rw [update_self]; exact ⟨rfl, rfl, hobj⟩) hother
      refine hpush.congr (fun _ _ => rfl) fun x => ?_
      show x ∈ s.allocated ∧ x ∉ s.inUse.erase e ↔ _
      rw [mem_erase, not_and_or, not_not]
      constructor
      · rintro ⟨hxa, hx | hx⟩
        · exact .inr hx
        · exact .inl ⟨hxa, hx⟩
      · rintro (⟨hxa, hx⟩ | rfl)
        · exact ⟨hxa, .inr hx⟩
        · exact ⟨ha, .inl rfl⟩
    · show s.space.isSize - 1 = (s.inUse.erase e).card + 1
      omega
    · show (update s.space.heap e _ zeroEntry).type = 0
      rw [hother zeroEntry fun hz => hI.mapped.proper.1 (hz ▸ ha), hI.zero]
  · rw [if_neg hfull, if_pos hfull]
    refine ⟨hI.active, hI.mapped.remove ha, ⟨l, hl.congr (fun _ _ => rfl) fun x => ?_⟩, hI.limit,
      erase_subset_erase e hI.sub, ?_, hI.zero⟩
    · show x ∈ s.allocated.erase e ∧ x ∉ s.inUse.erase e ↔ _
      rw [mem_erase, mem_erase, not_and_or, not_not]
      constructor
      · rintro ⟨⟨hne, hxa⟩, hx | hx⟩
        · exact absurd hx hne
        · exact ⟨hxa, hx⟩
      · rintro ⟨hxa, hx⟩
        exact ⟨⟨fun heq => hx (heq ▸ hu), hxa⟩, .inr hx⟩
    · show s.space.isSize - 1 = (s.inUse.erase e).card + 1
      omega

theorem Inv.store {x : Entry} (hu : e ∈ s.inUse) (hx : x.name = (s.space.heap e).name) :
    Inv { s with space := { s.space with heap := update s.space.heap e x } } := by
  have ha := hI.sub hu
  have hother : ∀ y, y ≠ e → update s.space.heap e x y = s.space.heap y :=
    fun y hy => update_of_ne hy ..
  obtain ⟨l, hl⟩ := hI.free
  refine ⟨hI.active, hI.mapped.congr fun y _ => ?_, ⟨l, hl.congr (fun y hy => ?_) fun _ => .rfl⟩,
    hI.limit, hI.sub, hI.size, ?_⟩
  · show (update s.space.heap e x y).name = _
    by_cases hy : y = e
    · subst hy
      rw [update_self, hx]
    · rw [hother y hy]
  · exact hother y fun heq => hy.2 (heq ▸ hu)
  · show (update s.space.heap e x zeroEntry).type = 0
    rw [hother zeroEntry fun hz => hI.mapped.proper.1 (hz ▸ ha), hI.zero]

end

def findsName (s : State) : Action → Prop
  | .alloc _ _ => canName s.space
  | _ => True

theorem Inv.step {s' : State} {a : Action} (hI : Inv s) (hok : findsName s a)
    (h : Entries.step s a = some s') : Inv s' := by
  cases a with
  | alloc fresh avail =>
    obtain ⟨hg, ⟨⟩⟩ := ite_none_left_eq_some.mp h
    rw [not_or] at hg
    exact hI.alloc hok hg.1 hg.2
  | allocName name fresh avail =>
    obtain ⟨hg, ⟨⟩⟩ := ite_none_left_eq_some.mp h
    simp only [not_or, not_not, not_le, not_exists, not_and] at hg
    obtain ⟨hf, hz, hv, hlt, hp⟩ := hg
    exact hI.allocName hv hlt hf hz hp
  | get =>
    simp only [Entries.step] at h
    split at h
    · cases h
      exact hI
    next hget =>
      cases h
      exact hI.get hget
  | dealloc e =>
    obtain ⟨hg, ⟨⟩⟩ := ite_none_left_eq_some.mp h
    simp only [not_or, not_not] at hg
    exact hI.dealloc hg.1 hg.2.1
  | store e bits object request =>
    obtain ⟨hg, ⟨⟩⟩ := ite_none_left_eq_some.mp h
    exact hI.store (not_not.mp hg) rfl

theorem Inv.reach (hr : lts.Reach findsName s) : Inv s :=
  hr.inv (fun _ h => Inv.init h) fun _ _ _ hI hok h => hI.step hok h

end Mach.Ipc.Entries
