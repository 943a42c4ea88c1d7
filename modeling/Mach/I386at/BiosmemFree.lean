import Mach.I386at.BiosmemHeap
import Mach.I386at.BiosmemSegments

/-!
# The release of free memory

`biosmem_free_usable` goes through the available entries of the map and releases the pages of
each gap between the permanent boot data. These are all free pages, each once; but a page that
is in no segment fails the assertion in `biosmem_free_usable_range`.
-/

namespace Mach.I386at.Biosmem

open List

variable {map : List Entry} {array : List BootData} {lim : Limits} {p : Nat}

/-! ## The pages of the gaps -/

theorem mem_pagesOf {r : Nat × Nat} (hs : Aligned r.1) (he : Aligned r.2) :
    p ∈ pagesOf r ↔ Aligned p ∧ r.1 ≤ p ∧ p < r.2 := by
  unfold pagesOf Aligned pageSize at *
  rw [mem_map]
  constructor
  · rintro ⟨i, hi, rfl⟩
    have := mem_range.mp hi
    omega
  · rintro ⟨hp, h1, h2⟩
    refine ⟨(p - r.1) / 4096, mem_range.mpr ?_, ?_⟩ <;> omega

theorem pagesOf_sorted (r : Nat × Nat) : (pagesOf r).Pairwise (· < ·) := by
  refine pairwise_map.mpr (pairwise_lt_range.imp fun hlt => ?_)
  unfold pageSize
  omega

theorem Gaps.flatMap_pagesOf {start stop : Nat} {ranges : List (Nat × Nat)}
    (h : Gaps array start stop ranges) :
    (ranges.flatMap pagesOf).Pairwise (· < ·) ∧ ∀ p, p ∈ ranges.flatMap pagesOf ↔
      Aligned p ∧ start ≤ p ∧ p + pageSize ≤ stop ∧ Unused array p := by
  have hmem : ∀ r ∈ ranges, ∀ p, p ∈ pagesOf r ↔ Aligned p ∧ r.1 ≤ p ∧ p < r.2 := by
    intro r hr p
    obtain ⟨hs, he, -⟩ := h.aligned r hr
    exact mem_pagesOf hs he
  constructor
  · refine pairwise_flatMap.mpr ⟨fun r _ => pagesOf_sorted r, ?_⟩
    refine h.ordered.imp_of_mem fun hr hr' hle p hp p' hp' => ?_
    have h1 := (hmem _ hr p).mp hp
    have h2 := (hmem _ hr' p').mp hp'
    omega
  · intro p
    rw [mem_flatMap]
    constructor
    · rintro ⟨r, hr, hp⟩
      obtain ⟨hp, h1, h2⟩ := (hmem r hr p).mp hp
      exact ⟨hp, (h.pages p hp).mp ⟨r, hr, h1, h2⟩⟩
    · rintro ⟨hp, hin⟩
      obtain ⟨r, hr, h1, h2⟩ := (h.pages p hp).mpr hin
      exact ⟨r, hr, (hmem r hr p).mpr ⟨hp, h1, h2⟩⟩

/-! ## The pages of the map -/

structure Released (lim : Limits) (map : List Entry) (array : List BootData) (pages : List Nat) : Prop where
  sorted : pages.Pairwise (· < ·)
  mem : ∀ p, p ∈ pages ↔ Aligned p ∧ biosmemBase ≤ p ∧ p < lim.highmem ∧ Available map p ∧ Unused array p

theorem Released.congr {map' : List Entry} {pages : List Nat} (h : Released lim map array pages)
    (hsame : ∀ p, Aligned p → biosmemBase ≤ p → p < lim.highmem → (Available map' p ↔ Available map p)) :
    Released lim map' array pages := by
  refine ⟨h.sorted, fun p => ?_⟩
  rw [h.mem]
  constructor
  · rintro ⟨hp, hbase, hhigh, hav, hun⟩
    exact ⟨hp, hbase, hhigh, (hsame p hp hbase hhigh).mpr hav, hun⟩
  · rintro ⟨hp, hbase, hhigh, hav, hun⟩
    exact ⟨hp, hbase, hhigh, (hsame p hp hbase hhigh).mp hav, hun⟩

theorem usable_spec (hhigh : Aligned lim.highmem) (hlast : lim.highmem ≤ lastPage) (harray : InOrder lastPage array)
    (h : SortedMap map) : ∃ pages, usable lim array map = .ok pages ∧ Released lim map array pages := by
  induction map with
  | nil =>
    refine ⟨[], rfl, List.Pairwise.nil, fun p => ⟨fun hp => absurd hp not_mem_nil, ?_⟩⟩
    rintro ⟨-, -, -, ⟨e, he, -⟩, -⟩
    cases he
  | cons entry rest ih =>
    obtain ⟨pages, heq, hpages⟩ := ih h.tail
    rw [usable]
    by_cases ht : entry.type = typeAvailable
    · rw [if_neg (not_not_intro ht)]
      dsimp only
      by_cases hbeyond : pageRound entry.base ≥ lim.highmem
      · -- so are all later entries
        rw [if_pos hbeyond]
        refine ⟨[], rfl, List.Pairwise.nil, fun p => ⟨fun hp => absurd hp not_mem_nil, ?_⟩⟩
        rintro ⟨hp, -, hlt, hav, -⟩
        have := h.base_le ht hp hav
        omega
      · rw [if_neg hbeyond]
        generalize hstop : (if pageTrunc entry.stop > lim.highmem then lim.highmem
          else pageTrunc entry.stop) = stop
        generalize hstart : (if pageRound entry.base < biosmemBase then biosmemBase
          else pageRound entry.base) = start
        -- the pages of the entry that may be released
        have hin : ∀ p, Aligned p → (start ≤ p ∧ p + pageSize ≤ stop ↔
            biosmemBase ≤ p ∧ p < lim.highmem ∧ entry.HasPage p) := by
          intro p hp
          rw [h.hasPage_iff ht hp]
          have hpage : p + pageSize ≤ stop ↔ p < stop := by
            have he := aligned_pageTrunc entry.stop
            have hstop' : Aligned stop := by
              rw [← hstop]
              split
              · exact hhigh
              · exact he
            unfold Aligned pageSize at *
            omega
          rw [hpage, ← hstart, ← hstop]
          split <;> split <;> omega
        by_cases hempty : start ≥ stop
        · rw [if_pos hempty]
          refine ⟨pages, heq, hpages.congr fun p hp hbase hlt => ?_⟩
          rw [available_cons]
          refine or_iff_right fun hpage => ?_
          have := (hin p hp).mpr ⟨hbase, hlt, hpage.2⟩
          unfold pageSize at this
          omega
        · rw [if_neg hempty]
          have hstoplast : stop ≤ lastPage := by
            rw [← hstop]
            split <;> omega
          have hfuel : (stop - start) / pageSize + 2 ≤ stop / pageSize + 2 := by
            unfold pageSize
            omega
          obtain ⟨ranges, hgaps, hg⟩ := gaps_spec harray hstoplast (Nat.le_of_not_le hempty) hfuel
          rw [hgaps, heq]
          obtain ⟨hsorted, hmem⟩ := hg.flatMap_pagesOf
          refine ⟨_, rfl, pairwise_append.mpr ⟨hsorted, hpages.sorted, fun p hp p' hp' => ?_⟩,
            fun p => ?_⟩
          · obtain ⟨hp, h1, h2, -⟩ := (hmem p).mp hp
            obtain ⟨-, -, -, hav, -⟩ := (hpages.mem p').mp hp'
            have hend := ((hin p hp).mp ⟨h1, h2⟩).2.2.2
            have hafter := h.after hav
            unfold pageSize at hend
            omega
          · rw [mem_append, hmem, hpages.mem, available_cons]
            constructor
            · rintro (⟨hp, h1, h2, hun⟩ | ⟨hp, hbase, hlt, hav, hun⟩)
              · obtain ⟨hbase, hlt, hpage⟩ := (hin p hp).mp ⟨h1, h2⟩
                exact ⟨hp, hbase, hlt, .inl ⟨ht, hpage⟩, hun⟩
              · exact ⟨hp, hbase, hlt, .inr hav, hun⟩
            · rintro ⟨hp, hbase, hlt, ⟨-, hpage⟩ | hav, hun⟩
              · obtain ⟨h1, h2⟩ := (hin p hp).mpr ⟨hbase, hlt, hpage⟩
                exact .inl ⟨hp, h1, h2, hun⟩
              · exact .inr ⟨hp, hbase, hlt, hav, hun⟩
    · rw [if_pos ht]
      exact ⟨pages, heq, hpages.congr fun p _ _ _ => available_cons_of_ne ht⟩

/-! ## All free memory -/

theorem manage_eq (segs : List (Nat × Nat)) (pages : List Nat) :
    manage segs pages = if ∀ p ∈ pages, lookupPa segs p = true then .ok pages else .error .assertion := by
  induction pages with
  | nil => rfl
  | cons p pages ih =>
    have hcons : (∀ q ∈ p :: pages, lookupPa segs q = true) ↔
        lookupPa segs p = true ∧ ∀ q ∈ pages, lookupPa segs q = true := forall_mem_cons
    rw [manage, ih]
    by_cases hp : lookupPa segs p = true
    · rw [if_pos hp]
      by_cases hall : ∀ q ∈ pages, lookupPa segs q = true
      · rw [if_pos hall, if_pos (hcons.mpr ⟨hp, hall⟩)]
      · rw [if_neg hall, if_neg fun h => hall (hcons.mp h).2]
    · rw [if_neg hp, if_neg fun h => hp (hcons.mp h).1]

/-- A page that is to be released: it lies in available memory below the limit, and has no
byte of permanent boot data. -/
structure Free (lim : Limits) (map : List Entry) (array : List BootData) (p : Nat) : Prop where
  aligned : Aligned p
  base : biosmemBase ≤ p
  highmem : p < lim.highmem
  available : Available map p
  unused : ∀ d ∈ array, d.temporary = false → ¬Meets d p

/-- What the release is to do: it comes to an end, each free page is released once and no
other page is, and the pages are in segments. -/
def FreesAll (lim : Limits) (segs : List (Nat × Nat)) (map : List Entry) (array : List BootData) : Prop :=
  ∃ pages, freeUsable lim segs map array = .ok pages ∧ pages.Nodup ∧
    (∀ p, p ∈ pages ↔ Free lim map array p) ∧ ∀ p ∈ pages, lookupPa segs p = true

theorem Limits.Ok.aligned_highmem (h : lim.Ok) : Aligned lim.highmem :=
  h.limits.1 _ (mem_cons_of_mem _ (mem_cons_of_mem _ (mem_of_getLast? h.last)))

theorem lookupPa_of_loaded {segs : List (Nat × Nat)} (h : lookupPa (loadedSegments segs) p = true) :
    lookupPa segs p = true := by
  obtain ⟨seg, hseg, hin⟩ := lookupPa_iff.mp h
  exact lookupPa_iff.mpr ⟨seg, (takeWhile_sublist _).subset hseg, hin⟩

theorem freesAll_iff {segs : List (Nat × Nat)} (hlim : lim.Ok) (h : SortedMap map) (harray : InOrder lastPage array) :
    FreesAll lim segs map array ↔ ∀ p, Free lim map array p → lookupPa (loadedSegments segs) p = true := by
  have hfilter := unregisterTemporary_eq harray le_rfl
  obtain ⟨pages, heq, hpages⟩ :=
    usable_spec hlim.aligned_highmem hlim.below (harray.sublist (filter_sublist (p := fun d => !d.temporary))) h
  have hmem : ∀ p, p ∈ pages ↔ Free lim map array p := by
    intro p
    rw [hpages.mem]
    constructor
    · rintro ⟨hp, hbase, hhigh, hav, hun⟩
      refine ⟨hp, hbase, hhigh, hav, fun d hd htemp => hun d (mem_filter.mpr ⟨hd, ?_⟩)⟩
      rw [htemp]
      rfl
    · intro hfree
      refine ⟨hfree.aligned, hfree.base, hfree.highmem, hfree.available, fun d hd => ?_⟩
      obtain ⟨hd, htemp⟩ := mem_filter.mp hd
      exact hfree.unused d hd (Bool.not_eq_true' _ ▸ htemp)
  have hrun : freeUsable lim segs map array = manage (loadedSegments segs) pages := by
    unfold freeUsable
    rw [hfilter, heq]
  unfold FreesAll
  rw [hrun, manage_eq]
  constructor
  · rintro ⟨pages', hok, -⟩ p hfree
    split at hok
    next hall => exact hall p ((hmem p).mpr hfree)
    next => cases hok
  · intro hall
    have hall' : ∀ p ∈ pages, lookupPa (loadedSegments segs) p = true :=
      fun p hp => hall p ((hmem p).mp hp)
    rw [if_pos hall']
    exact ⟨pages, rfl, hpages.sorted.imp Nat.ne_of_lt, hmem, fun p hp => lookupPa_of_loaded (hall' p hp)⟩

def limits64 (smp : Bool) : Limits :=
  ⟨0x1000000, [0x60000000, 0x100000000, 0x10000000000000], 0x60000000, 0x10000000000000, smp⟩

theorem limits64_ok (smp : Bool) : (limits64 smp).Ok := by
  have hlimits : GoodLimits [0x10000, 0x1000000, 0x60000000, 0x100000000, 0x10000000000000] := by
    unfold GoodLimits Aligned pageSize
    decide
  have hlast : 0x10000000000000 ≤ lastPage := by decide
  exact ⟨hlimits, rfl, hlast⟩

/-- A machine with two pages of low memory, 3 MB of upper memory and two pages at `high`. -/
def machine (high : Nat) : List Entry :=
  [⟨0x10000, 0x2000, 1⟩, ⟨0x100000, 0x300000, 1⟩, ⟨high, 0x2000, 1⟩]

theorem machine_sorted {high : Nat} (hlow : 0x400000 ≤ high) (hhigh : high < 2 ^ 63) :
    SortedMap (machine high) := by
  have hvalid : ∀ e ∈ machine high, 0 < e.length ∧ e.base + e.length ≤ lastPage := by
    unfold machine lastPage
    simp only [forall_mem_cons]
    refine ⟨by omega, by omega, by omega, fun e he => absurd he not_mem_nil⟩
  refine ⟨fun e he => ?_, ?_, fun e he _ => (hvalid e he).2⟩
  · obtain ⟨hpos, hlast⟩ := hvalid e he
    refine ⟨hpos, ?_⟩
    unfold lastPage at hlast
    unfold Entry.Small
    omega
  · unfold machine
    simp only [pairwise_cons, forall_mem_cons]
    refine ⟨⟨by omega, by omega, fun e he => absurd he not_mem_nil⟩,
      ⟨by omega, fun e he => absurd he not_mem_nil⟩, fun e he => absurd he not_mem_nil,
      List.Pairwise.nil⟩

def bootRanges : List BootData := [⟨0x181000, 0x182456, true⟩, ⟨0x100000, 0x180123, false⟩]

def upperHeap : Heap := ⟨0x183000, 0x183000, 0x400000, 0x400000, true⟩

def bootArray : List BootData :=
  [⟨0x100000, 0x180123, false⟩, ⟨0x181000, 0x182456, true⟩, ⟨0x183000, 0x400000, false⟩]

theorem bootRanges_registered : registerAll [] bootRanges = .ok (bootArray.take 2) := by
  decide

theorem upperHeap_set (smp : Bool) :
    setupAllocator (limits64 smp) 3072 (bootArray.take 2) = .ok (upperHeap, bootArray) := by
  cases smp <;> decide

end Mach.I386at.Biosmem
