import Mach.I386at.BiosmemGaps
import Mach.I386at.BiosmemAdjust
import Mathlib.Data.List.TakeWhile

/-!
# The segments of physical memory

Which available pages the segments that `biosmem_bootstrap_common` sets up have. The function
returns at the first range between two limits without available memory, and what lies above
is in no segment; with more than one processor a page is taken off the first segment.
-/

namespace Mach.I386at.Biosmem

open List Nat

variable {map rest : List Entry} {entry : Entry} {p a b : Nat}

/-! ## Available pages -/

/-- What is relied on of the adjusted map. The available entries have been narrowed to pages,
so that none reaches into the last one. -/
structure SortedMap (map : List Entry) : Prop where
  valid : ∀ e ∈ map, e.Valid
  ordered : map.Pairwise fun e e' => e.base + e.length ≤ e'.base
  below : ∀ e ∈ map, e.type = typeAvailable → e.base + e.length ≤ lastPage

def Entry.HasPage (e : Entry) (p : Nat) : Prop := e.base ≤ p ∧ p + pageSize ≤ e.base + e.length

def Available (map : List Entry) (p : Nat) : Prop := ∃ e ∈ map, e.type = typeAvailable ∧ e.HasPage p

theorem available_cons : Available (entry :: rest) p ↔
    (entry.type = typeAvailable ∧ entry.HasPage p) ∨ Available rest p := by
  constructor
  · rintro ⟨e, he, h⟩
    rcases mem_cons.mp he with rfl | he
    · exact .inl h
    · exact .inr ⟨e, he, h⟩
  · rintro (h | ⟨e, he, h⟩)
    · exact ⟨entry, mem_cons_self, h⟩
    · exact ⟨e, mem_cons_of_mem entry he, h⟩

theorem available_cons_of_ne (h : entry.type ≠ typeAvailable) :
    Available (entry :: rest) p ↔ Available rest p := by
  rw [available_cons]
  exact or_iff_right fun hp => h hp.1

theorem hasPage_iff (h : entry.Valid) (hbelow : entry.base + entry.length ≤ lastPage) (hp : Aligned p) :
    entry.HasPage p ↔ pageRound entry.base ≤ p ∧ p < pageTrunc entry.stop := by
  rw [pageRound_le_iff (by omega) hp, add_le_pageTrunc_iff hp, h.small.stop]
  exact Iff.rfl

theorem Aligned.max (ha : Aligned a) (hb : Aligned b) : Aligned (max a b) := by
  rcases le_total a b with hle | hle
  · rw [max_eq_right hle]
    exact hb
  · rw [max_eq_left hle]
    exact ha

section

variable (h : SortedMap (entry :: rest))
include h

theorem SortedMap.tail : SortedMap rest :=
  ⟨fun e he => h.valid e (mem_cons_of_mem entry he), (pairwise_cons.mp h.ordered).2,
    fun e he => h.below e (mem_cons_of_mem entry he)⟩

theorem SortedMap.after (hp : Available rest p) : entry.base + entry.length ≤ p := by
  obtain ⟨e, he, -, hin⟩ := hp
  exact le_trans ((pairwise_cons.mp h.ordered).1 e he) hin.1

section

variable (ht : entry.type = typeAvailable)
include ht

theorem SortedMap.hasPage_iff (hp : Aligned p) :
    entry.HasPage p ↔ pageRound entry.base ≤ p ∧ p < pageTrunc entry.stop :=
  Biosmem.hasPage_iff (h.valid entry mem_cons_self) (h.below entry mem_cons_self ht) hp

theorem SortedMap.aligned_base : Aligned (pageRound entry.base) := by
  have := h.below entry mem_cons_self ht
  exact aligned_pageRound (by omega)

theorem SortedMap.base_le (hp : Aligned p)
    (hav : Available (entry :: rest) p) : pageRound entry.base ≤ p := by
  have hbelow := h.below entry mem_cons_self ht
  rcases available_cons.mp hav with ⟨-, hin⟩ | hav
  · exact ((h.hasPage_iff ht hp).mp hin).1
  · have hafter := h.after hav
    rw [pageRound_le_iff (by omega) hp]
    omega

end

theorem SortedMap.trunc_le : ∀ entry' ∈ rest, pageTrunc entry.stop ≤ entry'.base := by
  intro entry' hentry'
  have hnext := (pairwise_cons.mp h.ordered).1 entry' hentry'
  have htrunc := pageTrunc_le entry.stop
  rw [(h.valid entry mem_cons_self).small.stop] at htrunc ⊢
  omega

/-! ## The range of a segment -/

def HasAvailable (map : List Entry) (a b : Nat) : Prop := ∃ p, Aligned p ∧ a ≤ p ∧ p < b ∧ Available map p

/-- `stop` is the end of the last available page before `b`. -/
def LastEnd (map : List Entry) (a b stop : Nat) : Prop :=
  ∃ q, Aligned q ∧ a ≤ q ∧ q + pageSize = min stop b ∧ Available map q

omit h in
theorem LastEnd.cons {stop : Nat} (h : LastEnd rest a b stop) : LastEnd (entry :: rest) a b stop := by
  obtain ⟨q, hq, haq, hend, hav⟩ := h
  exact ⟨q, hq, haq, hend, available_cons.mpr (.inr hav)⟩

theorem SortedMap.lastEnd (ht : entry.type = typeAvailable) (ha : Aligned a) (hb : Aligned b)
    (hab : a < b) (hstart : pageRound entry.base < b)
    (hne : pageRound entry.base < pageTrunc entry.stop) (hstop : a < pageTrunc entry.stop) :
    LastEnd (entry :: rest) a b (pageTrunc entry.stop) := by
  have hs := h.aligned_base ht
  have he := aligned_pageTrunc entry.stop
  have hq : Aligned (min (pageTrunc entry.stop) b - pageSize) := by
    unfold Aligned pageSize at *
    omega
  have hpage : pageRound entry.base ≤ min (pageTrunc entry.stop) b - pageSize ∧
      a ≤ min (pageTrunc entry.stop) b - pageSize ∧
      min (pageTrunc entry.stop) b - pageSize + pageSize = min (pageTrunc entry.stop) b ∧
      min (pageTrunc entry.stop) b - pageSize < pageTrunc entry.stop := by
    unfold Aligned pageSize at *
    omega
  obtain ⟨h1, h2, h3, h4⟩ := hpage
  exact ⟨_, hq, h2, h3, available_cons.mpr (.inl ⟨ht, (h.hasPage_iff ht hq).mpr ⟨h1, h4⟩⟩)⟩

end

theorem findAvailLoop_some (ha : Aligned a) (hb : Aligned b) (hab : a < b) :
    ∀ {map : List Entry} {s e : Nat}, SortedMap map → s < e → (∀ entry ∈ map, e ≤ entry.base) →
    ∃ stop, findAvailLoop a b map (some (s, e)) = some (s, stop) ∧ e ≤ stop ∧
      (stop = e ∨ LastEnd map a b stop) ∧
      ∀ p, Aligned p → a ≤ p → p < b → Available map p → s ≤ p ∧ p < stop
  | [], s, e, _, _, _ => by
    refine ⟨e, rfl, le_refl e, .inl rfl, fun p _ _ _ hav => ?_⟩
    obtain ⟨entry, hmem, -⟩ := hav
    cases hmem
  | entry :: rest, s, e, h, hse, hafter => by
    have hbase := hafter entry mem_cons_self
    have hrest : ∀ entry' ∈ rest, e ≤ entry'.base :=
      fun entry' hentry' => hafter entry' (mem_cons_of_mem entry hentry')
    rw [findAvailLoop]
    by_cases ht : entry.type = typeAvailable
    · rw [if_neg (not_not_intro ht)]
      have hround : entry.base ≤ pageRound entry.base := by
        have := h.below entry mem_cons_self ht
        exact le_pageRound (by omega)
      by_cases hbeyond : pageRound entry.base ≥ b
      · -- the map goes on beyond the interval
        rw [if_pos hbeyond]
        refine ⟨e, rfl, le_refl e, .inl rfl, fun p hp _ hpb hav => ?_⟩
        have := h.base_le ht hp hav
        omega
      · rw [if_neg hbeyond]
        by_cases hin : pageRound entry.base < pageTrunc entry.stop ∧ pageTrunc entry.stop > a
        · rw [if_pos hin]
          obtain ⟨stop, heq, hle, hlast, hall⟩ :=
            @findAvailLoop_some ha hb hab rest s (pageTrunc entry.stop) h.tail (by omega) h.trunc_le
          refine ⟨stop, heq, by omega, .inr ?_, fun p hp hap hpb hav => ?_⟩
          · rcases hlast with rfl | hlast
            · exact h.lastEnd ht ha hb hab (not_le.mp hbeyond) hin.1 hin.2
            · exact hlast.cons
          · rcases available_cons.mp hav with ⟨-, hpage⟩ | hav
            · have := (h.hasPage_iff ht hp).mp hpage
              omega
            · exact hall p hp hap hpb hav
        · rw [if_neg hin]
          obtain ⟨stop, heq, hle, hlast, hall⟩ := findAvailLoop_some ha hb hab h.tail hse hrest
          refine ⟨stop, heq, hle, hlast.imp_right LastEnd.cons, fun p hp hap hpb hav => ?_⟩
          rcases available_cons.mp hav with ⟨-, hpage⟩ | hav
          · have := (h.hasPage_iff ht hp).mp hpage
            omega
          · exact hall p hp hap hpb hav
    · rw [if_pos ht]
      obtain ⟨stop, heq, hle, hlast, hall⟩ := findAvailLoop_some ha hb hab h.tail hse hrest
      refine ⟨stop, heq, hle, hlast.imp_right LastEnd.cons, fun p hp hap hpb hav => ?_⟩
      exact hall p hp hap hpb ((available_cons_of_ne ht).mp hav)

def LoopFound (map : List Entry) (a b : Nat) : Option (Nat × Nat) → Prop
  | none => ¬HasAvailable map a b
  | some (s, e) => Aligned s ∧ Available map (max a s) ∧ s < b ∧ LastEnd map a b e ∧
      ∀ p, Aligned p → a ≤ p → p < b → Available map p → s ≤ p ∧ p < e

theorem findAvailLoop_none (ha : Aligned a) (hb : Aligned b) (hab : a < b) (h : SortedMap map) :
    LoopFound map a b (findAvailLoop a b map none) := by
  induction map with
  | nil =>
    rintro ⟨p, -, -, -, entry, hmem, -⟩
    cases hmem
  | cons entry rest ih =>
    -- an entry without pages of the interval changes nothing
    have hskip : (∀ p, Aligned p → a ≤ p → p < b → (Available (entry :: rest) p ↔ Available rest p)) →
        LoopFound (entry :: rest) a b (findAvailLoop a b rest none) := by
      intro hsame
      have hrest := ih h.tail
      cases heq : findAvailLoop a b rest none with
      | none =>
        rw [heq] at hrest
        rintro ⟨p, hp, hap, hpb, hav⟩
        exact hrest ⟨p, hp, hap, hpb, (hsame p hp hap hpb).mp hav⟩
      | some r =>
        rw [heq] at hrest
        obtain ⟨s, e⟩ := r
        obtain ⟨hs, hfirst, hsb, hlast, hall⟩ := hrest
        exact ⟨hs, available_cons.mpr (.inr hfirst), hsb, hlast.cons,
          fun p hp hap hpb hav => hall p hp hap hpb ((hsame p hp hap hpb).mp hav)⟩
    rw [findAvailLoop]
    by_cases ht : entry.type = typeAvailable
    · rw [if_neg (not_not_intro ht)]
      by_cases hbeyond : pageRound entry.base ≥ b
      · rw [if_pos hbeyond]
        rintro ⟨p, hp, -, hpb, hav⟩
        have := h.base_le ht hp hav
        omega
      · rw [if_neg hbeyond]
        by_cases hin : pageRound entry.base < pageTrunc entry.stop ∧ pageTrunc entry.stop > a
        · rw [if_pos hin]
          obtain ⟨stop, heq, hle, hlast, hall⟩ := findAvailLoop_some ha hb hab h.tail hin.1 h.trunc_le
          have hs := h.aligned_base ht
          have hmax := ha.max hs
          rw [show ((none : Option (Nat × Nat)).map Prod.fst).getD (pageRound entry.base) =
            pageRound entry.base from rfl, heq]
          refine ⟨hs, available_cons.mpr (.inl ⟨ht, (h.hasPage_iff ht hmax).mpr ⟨by omega, by omega⟩⟩),
            by omega, ?_, fun p hp hap hpb hav => ?_⟩
          · rcases hlast with rfl | hlast
            · exact h.lastEnd ht ha hb hab (not_le.mp hbeyond) hin.1 hin.2
            · exact hlast.cons
          · rcases available_cons.mp hav with ⟨-, hpage⟩ | hav
            · have := (h.hasPage_iff ht hp).mp hpage
              omega
            · exact hall p hp hap hpb hav
        · rw [if_neg hin]
          refine hskip fun p hp hap hpb => ?_
          rw [available_cons]
          refine or_iff_right fun hpage => ?_
          have := (h.hasPage_iff ht hp).mp hpage.2
          omega
    · rw [if_pos ht]
      exact hskip fun p _ _ _ => available_cons_of_ne ht

structure Spans (map : List Entry) (a b s e : Nat) : Prop where
  inside : a ≤ s ∧ s < e ∧ e ≤ b
  first : Aligned s ∧ Available map s
  last : ∃ q, Aligned q ∧ a ≤ q ∧ q + pageSize = e ∧ Available map q
  all : ∀ p, Aligned p → a ≤ p → p < b → Available map p → s ≤ p ∧ p < e

section

variable (ha : Aligned a) (hb : Aligned b) (hab : a < b) (h : SortedMap map)
include ha hb hab h

theorem mapFindAvail_none (heq : mapFindAvail map a b = none) : ¬HasAvailable map a b := by
  have hfound := findAvailLoop_none ha hb hab h
  rw [mapFindAvail, Option.map_eq_none_iff] at heq
  rw [heq] at hfound
  exact hfound

theorem mapFindAvail_some {s e : Nat}
    (heq : mapFindAvail map a b = some (s, e)) : Spans map a b s e := by
  have hfound := findAvailLoop_none ha hb hab h
  rw [mapFindAvail, Option.map_eq_some_iff] at heq
  obtain ⟨⟨s0, e0⟩, hloop, hclip⟩ := heq
  rw [hloop] at hfound
  obtain ⟨hs, hfirst, hsb, ⟨q, hq, haq, hend, hqav⟩, hall⟩ := hfound
  cases hclip
  have hstart : (if s0 > a then s0 else a) = max a s0 := by
    split <;> omega
  have hstop : (if e0 < b then e0 else b) = min e0 b := by
    split <;> omega
  rw [hstart, hstop]
  have hmax := ha.max hs
  have hlt := (hall (max a s0) hmax (le_max_left a s0) (by omega) hfirst).2
  refine ⟨⟨le_max_left a s0, by omega, min_le_right e0 b⟩, ⟨hmax, hfirst⟩,
    ⟨q, hq, haq, hend, hqav⟩, fun p hp hap hpb hav => ?_⟩
  have := hall p hp hap hpb hav
  omega

end

theorem Spans.hasAvailable {s e : Nat} (h : Spans map a b s e) : HasAvailable map a b := by
  have := h.inside
  exact ⟨s, h.first.1, this.1, by omega, h.first.2⟩

/-! ## The segments above the first -/

variable {segs : List (Nat × Nat)} {lim : Limits}

theorem lookupPa_iff : lookupPa segs p = true ↔ ∃ seg ∈ segs, seg.1 ≤ p ∧ p < seg.2 := by
  unfold lookupPa
  simp

theorem lookupPa_cons {seg : Nat × Nat} :
    lookupPa (seg :: segs) p = true ↔ (seg.1 ≤ p ∧ p < seg.2) ∨ lookupPa segs p = true := by
  rw [lookupPa, any_cons, Bool.or_eq_true, Bool.and_eq_true, decide_eq_true_eq, decide_eq_true_eq]
  exact Iff.rfl

def GoodLimits (limits : List Nat) : Prop := (∀ l ∈ limits, Aligned l) ∧ limits.Pairwise (· < ·)

theorem GoodLimits.tail {l : Nat} {limits : List Nat} (h : GoodLimits (l :: limits)) : GoodLimits limits :=
  ⟨fun l' hl' => h.1 l' (mem_cons_of_mem l hl'), (pairwise_cons.mp h.2).2⟩

theorem GoodLimits.head {l l' : Nat} {limits : List Nat} (h : GoodLimits (l :: l' :: limits)) :
    Aligned l ∧ Aligned l' ∧ l < l' :=
  ⟨h.1 l mem_cons_self, h.1 l' (mem_cons_of_mem l mem_cons_self),
    (pairwise_cons.mp h.2).1 l' mem_cons_self⟩

theorem segmentsAbove_mem (h : SortedMap map) : ∀ {limits : List Nat} {l : Nat}, GoodLimits (l :: limits) →
    ∀ seg ∈ segmentsAbove map l limits, l ≤ seg.1 ∧ seg.1 < seg.2
  | [], _, _, seg, hseg => absurd hseg not_mem_nil
  | l' :: limits, l, hl, seg, hseg => by
    obtain ⟨ha, hb, hlt⟩ := hl.head
    rw [segmentsAbove] at hseg
    split at hseg
    · cases hseg
    rename_i heq
    rcases mem_cons.mp hseg with rfl | hseg
    · have := (mapFindAvail_some ha hb hlt h heq).inside
      exact ⟨this.1, this.2.1⟩
    · have := segmentsAbove_mem h hl.tail seg hseg
      exact ⟨by omega, this.2⟩

theorem lookupPa_segmentsAbove (h : SortedMap map) (hp : Aligned p) (hav : Available map p) :
    ∀ {limits : List Nat} {l : Nat}, GoodLimits (l :: limits) → l ≤ p → (∃ l' ∈ limits, p < l') →
    (lookupPa (segmentsAbove map l limits) p = true ↔
      ∀ r ∈ (l :: limits).zip limits, r.2 ≤ p → HasAvailable map r.1 r.2)
  | [], _, _, _, hlast => by
    obtain ⟨l', hl', -⟩ := hlast
    cases hl'
  | l' :: limits, l, hl, hlp, hlast => by
    obtain ⟨ha, hb, hlt⟩ := hl.head
    have hzip : (l :: l' :: limits).zip (l' :: limits) = (l, l') :: (l' :: limits).zip limits := rfl
    rw [segmentsAbove, hzip, forall_mem_cons]
    rcases lt_or_ge p l' with hpl | hpl
    · -- the page is in this range
      have hlater : ∀ r ∈ (l' :: limits).zip limits, ¬r.2 ≤ p := by
        intro r hr hle
        have := (pairwise_cons.mp hl.tail.2).1 r.2 (of_mem_zip hr).2
        omega
      refine iff_of_true ?_ ⟨fun hle => absurd hle (not_le.mpr hpl),
        fun r hr hle => absurd hle (hlater r hr)⟩
      cases heq : mapFindAvail map l l' with
      | none => exact absurd ⟨p, hp, hlp, hpl, hav⟩ (mapFindAvail_none ha hb hlt h heq)
      | some seg =>
        exact lookupPa_cons.mpr (.inl ((mapFindAvail_some ha hb hlt h heq).all p hp hlp hpl hav))
    · cases heq : mapFindAvail map l l' with
      | none =>
        refine iff_of_false ?_ fun hall => mapFindAvail_none ha hb hlt h heq (hall.1 hpl)
        rw [lookupPa_iff]
        rintro ⟨seg, hseg, -⟩
        cases hseg
      | some seg =>
        have hspans := mapFindAvail_some ha hb hlt h heq
        have hlast' : ∃ l'' ∈ limits, p < l'' := by
          obtain ⟨l'', hl'', hlt''⟩ := hlast
          rcases mem_cons.mp hl'' with rfl | hl''
          · omega
          · exact ⟨l'', hl'', hlt''⟩
        have ih := lookupPa_segmentsAbove h hp hav hl.tail hpl hlast'
        rw [lookupPa_cons, ih]
        have hout : ¬(seg.1 ≤ p ∧ p < seg.2) := by
          have := hspans.inside
          omega
        constructor
        · intro hor
          exact ⟨fun _ => hspans.hasAvailable, hor.resolve_left hout⟩
        · intro hall
          exact .inr hall.2

/-! ## All segments -/

structure Limits.Ok (lim : Limits) : Prop where
  limits : GoodLimits (biosmemBase :: lim.dma :: lim.above)
  last : lim.above.getLast? = some lim.highmem
  below : lim.highmem ≤ lastPage

/-- The ranges between limits that have to have available memory, if the page is to be in a
segment; and with more than one processor, the first segment has to keep a page. -/
structure Reached (lim : Limits) (map : List Entry) (p : Nat) : Prop where
  unbroken : ∀ r ∈ (lim.dma :: lim.above).zip lim.above, r.2 ≤ p → HasAvailable map r.1 r.2
  /-- Of two available pages below the DMA limit, neither of which lies above the page, the
  lower one is taken for the other processors. -/
  apboot : lim.smp = true → ∃ q q', Aligned q ∧ Aligned q' ∧ biosmemBase ≤ q ∧ q < q' ∧ q' ≤ p ∧
    q' < lim.dma ∧ Available map q ∧ Available map q'

section

variable (hlim : lim.Ok) (h : SortedMap map)
include hlim h

theorem loadedSegments_above :
    loadedSegments (segmentsAbove map lim.dma lim.above) = segmentsAbove map lim.dma lim.above := by
  refine takeWhile_eq_self_iff.mpr fun seg hseg => ?_
  have := (segmentsAbove_mem h hlim.limits.tail seg hseg).2
  rw [decide_eq_true_eq]
  omega

theorem lookupPa_loaded_cons {seg : Nat × Nat} :
    lookupPa (loadedSegments (seg :: segmentsAbove map lim.dma lim.above)) p = true ↔
      seg.1 < seg.2 ∧ ((seg.1 ≤ p ∧ p < seg.2) ∨
        lookupPa (segmentsAbove map lim.dma lim.above) p = true) := by
  unfold loadedSegments
  rw [takeWhile_cons]
  by_cases hlt : seg.1 < seg.2
  · rw [if_pos (by rw [decide_eq_true_eq]; omega), lookupPa_cons]
    have habove := loadedSegments_above hlim h
    unfold loadedSegments at habove
    rw [habove]
    exact (and_iff_right hlt).symm
  · rw [if_neg (by rw [decide_eq_true_eq]; omega)]
    refine iff_of_false ?_ fun hand => hlt hand.1
    rw [lookupPa_iff]
    rintro ⟨seg, hseg, -⟩
    cases hseg

theorem lookupPa_loaded
    (heq : bootstrapCommon lim map = .ok segs) (hp : Aligned p) (hav : Available map p)
    (hbase : biosmemBase ≤ p) (hhigh : p < lim.highmem) :
    lookupPa (loadedSegments segs) p = true ↔ Reached lim map p := by
  obtain ⟨ha, hb, hlt⟩ := hlim.limits.head
  have habove := segmentsAbove_mem h hlim.limits.tail
  have hlast : ∃ l ∈ lim.above, p < l := ⟨lim.highmem, mem_of_getLast? hlim.last, hhigh⟩
  -- a page below the DMA limit is in no other segment, and needs none
  have hlow : p < lim.dma → ¬lookupPa (segmentsAbove map lim.dma lim.above) p = true ∧
      ∀ r ∈ (lim.dma :: lim.above).zip lim.above, r.2 ≤ p → HasAvailable map r.1 r.2 := by
    intro hpl
    refine ⟨fun hin => ?_, fun r hr hle => ?_⟩
    · obtain ⟨seg, hseg, hseg1, -⟩ := lookupPa_iff.mp hin
      have := (habove seg hseg).1
      omega
    · have := (pairwise_cons.mp hlim.limits.tail.2).1 r.2 (of_mem_zip hr).2
      omega
  unfold bootstrapCommon at heq
  split at heq
  · cases heq
  rename_i s e hfind
  have hspans := mapFindAvail_some ha hb hlt h hfind
  have hinside := hspans.inside
  obtain ⟨hs, hsav⟩ := hspans.first
  obtain ⟨q, hq, -, hqe, hqav⟩ := hspans.last
  by_cases hsmp : lim.smp = true
  · rw [if_pos hsmp] at heq
    split at heq
    next =>
      cases heq
      rw [lookupPa_loaded_cons hlim h]
      rcases lt_or_ge p lim.dma with hpl | hpl
      · obtain ⟨hout, hfree⟩ := hlow hpl
        have hpin := hspans.all p hp hbase hpl hav
        constructor
        · rintro ⟨-, hin | hin⟩
          · refine ⟨hfree, fun _ => ⟨s, p, hs, hp, hinside.1, ?_, le_refl p, hpl, hsav, hav⟩⟩
            unfold pageSize at hin
            omega
          · exact absurd hin hout
        · intro hr
          obtain ⟨q1, q2, hq1, _, hbase1, hlt1, hle2, -, hav1, -⟩ := hr.apboot hsmp
          have hfirst := (hspans.all q1 hq1 hbase1 (by omega) hav1).1
          have hnext : s + pageSize ≤ p := by
            unfold Aligned pageSize at *
            omega
          exact ⟨by omega, .inl ⟨hnext, hpin.2⟩⟩
      · have hout : ¬(s + pageSize ≤ p ∧ p < e) := by omega
        rw [or_iff_right hout, lookupPa_segmentsAbove h hp hav hlim.limits.tail hpl hlast]
        constructor
        · rintro ⟨htwo, hall⟩
          refine ⟨hall, fun _ => ⟨s, q, hs, hq, hinside.1, ?_, by omega, ?_, hsav, hqav⟩⟩
          · omega
          · unfold pageSize at hqe
            omega
        · intro hr
          obtain ⟨q1, q2, hq1, hq2, hbase1, hlt1, -, hdma2, hav1, hav2⟩ := hr.apboot hsmp
          have hfirst := (hspans.all q1 hq1 hbase1 (by omega) hav1).1
          have hsecond := (hspans.all q2 hq2 (by omega) hdma2 hav2).2
          refine ⟨?_, hr.unbroken⟩
          unfold Aligned pageSize at *
          omega
    next => cases heq
  · rw [if_neg hsmp] at heq
    cases heq
    rw [lookupPa_loaded_cons hlim h, and_iff_right hinside.2.1]
    have happly : (∀ r ∈ (lim.dma :: lim.above).zip lim.above, r.2 ≤ p → HasAvailable map r.1 r.2) ↔
        Reached lim map p :=
      ⟨fun hall => ⟨hall, fun hyes => absurd hyes hsmp⟩, fun hr => hr.unbroken⟩
    rw [← happly]
    rcases lt_or_ge p lim.dma with hpl | hpl
    · exact iff_of_true (.inl (hspans.all p hp hbase hpl hav)) (hlow hpl).2
    · have hout : ¬(s ≤ p ∧ p < e) := by omega
      rw [or_iff_right hout, lookupPa_segmentsAbove h hp hav hlim.limits.tail hpl hlast]

end

end Mach.I386at.Biosmem
