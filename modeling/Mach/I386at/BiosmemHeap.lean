import Mach.I386at.BiosmemGaps
import Mach.I386at.BiosmemAdjust
import Mach.Lib.Fallible

/-!
# Boot data and the boot heap

The array of boot data stays in order, so that the heap is the largest gap. What
`biosmem_bootalloc` returns lies in the heap and does not overlap, as long as the size of a
request fits an `unsigned int`.
-/

namespace Mach.I386at.Biosmem

open Lib List Nat

variable {array array' rest rest' : List BootData} {new d : BootData} {bound : Nat}

/-! ## Boot data -/

theorem registerLoop_mem (h : registerLoop new array = .ok array') :
    ∀ d' ∈ array', d' = new ∨ ∃ d ∈ array, d'.start = d.start ∧ d'.stop = d.stop := by
  induction array generalizing array' with
  | nil =>
    cases h
    intro d' hd'
    exact .inl (mem_singleton.mp hd')
  | cons d rest ih =>
    rw [registerLoop] at h
    split at h
    next =>
      obtain ⟨-, ⟨⟩⟩ := of_ite_ok h
      intro d' hd'
      right
      rcases mem_cons.mp hd' with rfl | hd'
      · refine ⟨d, mem_cons_self, ?_⟩
        split <;> exact ⟨rfl, rfl⟩
      · exact ⟨d', mem_cons_of_mem d hd', rfl, rfl⟩
    next =>
      split at h
      next =>
        cases h
        intro d' hd'
        rcases mem_cons.mp hd' with rfl | hd'
        · exact .inl rfl
        · exact .inr ⟨d', hd', rfl, rfl⟩
      next =>
        split at h
        · cases h
        rename_i rest' heq
        cases h
        intro d' hd'
        rcases mem_cons.mp hd' with rfl | hd'
        · exact .inr ⟨d', mem_cons_self, rfl, rfl⟩
        · rcases ih heq d' hd' with hnew | ⟨d0, hd0, hsame⟩
          · exact .inl hnew
          · exact .inr ⟨d0, mem_cons_of_mem d hd0, hsame⟩

theorem InOrder.registerLoop (h : InOrder bound array) (hne : new.start < new.stop)
    (heq : registerLoop new array = .ok array') :
    array'.Pairwise fun d d' => d.stop ≤ d'.start := by
  induction array generalizing array' with
  | nil =>
    cases heq
    exact pairwise_singleton _ _
  | cons d rest ih =>
    obtain ⟨hd, hrest⟩ := pairwise_cons.mp h.ordered
    have hdne := h.nonempty d mem_cons_self
    rw [Biosmem.registerLoop] at heq
    split at heq
    next =>
      obtain ⟨-, ⟨⟩⟩ := of_ite_ok heq
      refine pairwise_cons.mpr ⟨fun d' hd' => ?_, hrest⟩
      have := hd d' hd'
      split <;> exact this
    next hout =>
      split at heq
      next hbefore =>
        cases heq
        refine pairwise_cons.mpr ⟨fun d' hd' => ?_, h.ordered⟩
        rcases mem_cons.mp hd' with rfl | hd'
        · exact hbefore
        · have := hd d' hd'
          omega
      next hafter =>
        split at heq
        · cases heq
        rename_i rest' heq'
        cases heq
        refine pairwise_cons.mpr ⟨fun d' hd' => ?_, ih h.tail heq'⟩
        rcases registerLoop_mem heq' d' hd' with rfl | ⟨d0, hd0, hstart, -⟩
        · omega
        · rw [hstart]
          exact hd d0 hd0

theorem InOrder.registerBootData (h : InOrder bound array) (hlast : new.stop ≤ bound)
    (heq : registerBootData new array = .ok array') : InOrder bound array' := by
  obtain ⟨hne, heq⟩ := of_ite_error heq
  obtain ⟨-, heq⟩ := of_ite_error heq
  refine ⟨fun d' hd' => ?_, h.registerLoop (Nat.not_le.mp hne) heq, fun d' hd' => ?_⟩
  · rcases registerLoop_mem heq d' hd' with rfl | ⟨d, hd, hstart, hstop⟩
    · exact Nat.not_le.mp hne
    · rw [hstart, hstop]
      exact h.nonempty d hd
  · rcases registerLoop_mem heq d' hd' with rfl | ⟨d, hd, -, hstop⟩
    · exact hlast
    · rw [hstop]
      exact h.below d hd

theorem InOrder.registerAll : ∀ {ranges : List BootData} {array : List BootData}, InOrder bound array →
    (∀ r ∈ ranges, r.stop ≤ bound) → registerAll array ranges = .ok array' → InOrder bound array'
  | [], _, h, _, heq => by
    cases heq
    exact h
  | new :: ranges, array, h, hlast, heq => by
    rw [Biosmem.registerAll] at heq
    cases hnew : Biosmem.registerBootData new array with
    | error p =>
      rw [hnew] at heq
      cases heq
    | ok array1 =>
      rw [hnew] at heq
      exact (h.registerBootData (hlast new mem_cons_self) hnew).registerAll
        (fun r hr => hlast r (mem_cons_of_mem new hr)) heq

theorem InOrder.nil : InOrder bound [] :=
  ⟨fun _ hd => absurd hd not_mem_nil, List.Pairwise.nil, fun _ hd => absurd hd not_mem_nil⟩

theorem InOrder.sublist (h : InOrder bound array) (hs : array'.Sublist array) : InOrder bound array' :=
  ⟨fun d hd => h.nonempty d (hs.subset hd), h.ordered.sublist hs, fun d hd => h.below d (hs.subset hd)⟩

theorem unregisterBootData_append (h : InOrder bound (array ++ d :: rest)) :
    unregisterBootData d.start d.stop (array ++ d :: rest) = array ++ rest := by
  induction array with
  | nil =>
    rw [nil_append, unregisterBootData, if_pos ⟨rfl, rfl⟩]
    rfl
  | cons d' array ih =>
    have hnext := (pairwise_cons.mp h.ordered).1 d (mem_append_right _ mem_cons_self)
    have hne := h.nonempty d' mem_cons_self
    rw [cons_append, unregisterBootData, if_neg (by omega), ih h.tail]
    rfl

theorem unregisterTemporary_eq : ∀ {fuel : Nat} {array : List BootData}, InOrder bound array →
    array.length ≤ fuel → unregisterTemporary fuel array = array.filter fun d => !d.temporary
  | 0, array, _, hfuel => by
    rw [length_eq_zero_iff.mp (le_zero.mp hfuel)]
    rfl
  | fuel + 1, array, h, hfuel => by
    rw [unregisterTemporary]
    cases hfind : array.find? fun d => d.temporary with
    | none =>
      refine (filter_eq_self.mpr fun d hd => ?_).symm
      rw [Bool.not_eq_true']
      exact Bool.eq_false_iff.mpr (List.find?_eq_none.mp hfind d hd)
    | some d =>
      obtain ⟨htemp, before, after, rfl, -⟩ := List.find?_eq_some_iff_append.mp hfind
      have hsub : (before ++ after).Sublist (before ++ d :: after) :=
        (List.Sublist.refl before).append (sublist_cons_self d after)
      have hlength : (before ++ after).length ≤ fuel := by
        rw [length_append, length_cons] at hfuel
        rw [length_append]
        omega
      dsimp only
      rw [unregisterBootData_append h, unregisterTemporary_eq (h.sublist hsub) hlength,
        filter_append, filter_append, filter_cons_of_neg]
      rw [htemp]
      exact Bool.false_ne_true

/-! ## The heap -/

def Avoids (array : List BootData) (r : Nat × Nat) : Prop := ∀ d ∈ array, d.stop ≤ r.1 ∨ r.2 ≤ d.start

/-- What the heap is to be: page-aligned, free of boot data, and as large as any other such
range of the interval that is searched. -/
structure HeapOk (array : List BootData) (stop : Nat) (heap : Heap) : Prop where
  aligned : Aligned heap.start ∧ Aligned heap.stop
  avoids : Avoids array (heap.start, heap.stop)
  largest : ∀ r : Nat × Nat, Aligned r.1 → Aligned r.2 → biosmemEnd ≤ r.1 → r.2 ≤ stop →
    Avoids array r → r.2 - r.1 ≤ heap.stop - heap.start

theorem foldl_largest (ranges : List (Nat × Nat)) (best : Nat × Nat) :
    (ranges.foldl largest best = best ∨ ranges.foldl largest best ∈ ranges) ∧
      best.2 - best.1 ≤ (ranges.foldl largest best).2 - (ranges.foldl largest best).1 ∧
      ∀ r ∈ ranges, r.2 - r.1 ≤ (ranges.foldl largest best).2 - (ranges.foldl largest best).1 := by
  induction ranges generalizing best with
  | nil => exact ⟨.inl rfl, (Nat.le_refl _), nofun⟩
  | cons r ranges ih =>
    obtain ⟨hmem, hbest, hall⟩ := ih (largest best r)
    rw [foldl_cons]
    have hlarger : best.2 - best.1 ≤ (largest best r).2 - (largest best r).1 ∧
        r.2 - r.1 ≤ (largest best r).2 - (largest best r).1 := by
      unfold largest
      split <;> omega
    refine ⟨?_, by omega, fun r' hr' => ?_⟩
    · rcases hmem with hmem | hmem
      · rw [hmem]
        unfold largest
        split
        · exact .inr mem_cons_self
        · exact .inl rfl
      · exact .inr (mem_cons_of_mem r hmem)
    · rcases mem_cons.mp hr' with rfl | hr'
      · omega
      · exact hall r' hr'

theorem avoids_of_unused {s e : Nat} (hs : Aligned s) (h : InOrder lastPage array)
    (hlt : s < e) (hin : ∀ p, Aligned p → s ≤ p → p < e → Unused array p) : Avoids array (s, e) := by
  intro d hd
  have hne := h.nonempty d hd
  rcases Nat.lt_or_ge s d.stop with hstop | hge
  · right
    refine Nat.le_of_not_lt fun hlt' => ?_
    have hlt' : d.start < e := hlt'
    -- the page of the first common byte
    by_cases hstart : d.start ≤ s
    · refine hin s hs (Nat.le_refl s) hlt d hd ⟨?_, hstop⟩
      unfold pageSize
      omega
    · have htrunc := pageTrunc_le d.start
      refine hin (pageTrunc d.start) (aligned_pageTrunc _) ?_ (by omega) d hd ⟨?_, by omega⟩
      · unfold Aligned pageSize at hs
        unfold pageTrunc pageSize
        omega
      · unfold pageTrunc pageSize
        omega
  · exact .inl hge

theorem unused_of_avoids {r : Nat × Nat} {p : Nat} (h : Avoids array r) (hr : Aligned r.2) (hp : Aligned p)
    (h1 : r.1 ≤ p) (h2 : p < r.2) : Unused array p := by
  intro d hd hmeets
  have hm1 := hmeets.1
  have hm2 := hmeets.2
  have hd := h d hd
  unfold Aligned pageSize at hr hp
  unfold pageSize at hm1
  omega

theorem heapLimit_lt (lim : Limits) (memUpper : Nat) : heapLimit lim memUpper < 2 ^ 32 := by
  have := pageTrunc_le ((memUpper + 1024) * 1024 % 2 ^ 32)
  unfold heapLimit
  dsimp only
  split <;> omega

theorem clipLoop_below : ∀ {array : List BootData} {a b : Nat} {r : Nat × Nat},
    clipLoop array a b = .ok (some r) → ∀ d ∈ array, d.stop < 2 ^ 64 → d.stop ≤ lastPage
  | [], _, _, _, _, _, hd, _ => absurd hd not_mem_nil
  | data :: rest, a, b, r, heq, d, hd, hword => by
    rw [clipLoop] at heq
    split at heq
    next => cases heq
    next => cases heq
    next a' b' hclip =>
      rcases mem_cons.mp hd with rfl | hd
      · unfold findAvailClip at hclip
        by_cases hwrap : pageRound d.stop < d.stop
        · rw [if_pos hwrap] at hclip
          cases hclip
        · unfold pageRound pageSize at hwrap
          unfold lastPage
          omega
      · exact clipLoop_below heq d hd hword

theorem gaps_below {stop fuel start : Nat} {r : Nat × Nat} {ranges : List (Nat × Nat)}
    (heq : gaps array stop fuel start = .ok (r :: ranges)) (hd : d ∈ array) (hword : d.stop < 2 ^ 64) :
    d.stop ≤ lastPage := by
  cases fuel with
  | zero => cases heq
  | succ fuel =>
    rw [gaps] at heq
    split at heq
    next => cases heq
    next => cases heq
    next hfind =>
      obtain ⟨-, hfind⟩ := of_ite_ok hfind
      split at hfind
      next => cases hfind
      next => exact clipLoop_below hfind d hd hword

theorem setupAllocator_eq_ok {lim : Limits} {memUpper : Nat} {heap : Heap}
    (heq : setupAllocator lim memUpper array = .ok (heap, array')) :
    ∃ ranges best, gaps array (heapLimit lim memUpper) (heapLimit lim memUpper / pageSize + 2)
        biosmemEnd = .ok ranges ∧ ranges.foldl largest (0, 0) = best ∧ best.1 < best.2 ∧
      registerBootData ⟨best.1, best.2, false⟩ array = .ok array' ∧
      heap = ⟨best.1, best.1, best.2, best.2, true⟩ := by
  -- the kernel would run the search if the function were unfolded where it is applied
  generalize hf : @setupAllocator = f at heq
  delta setupAllocator at hf
  subst hf
  dsimp -iota only at heq
  generalize gaps array _ _ _ = g at heq ⊢
  cases g with
  | error p => cases heq
  | ok ranges =>
    obtain ⟨hne, heq⟩ := of_ite_error heq
    split at heq
    next => cases heq
    next array1 hreg =>
      cases heq
      exact ⟨ranges, _, rfl, rfl, Nat.lt_of_not_ge hne, hreg, rfl⟩

theorem setupAllocator_below {lim : Limits} {memUpper : Nat} {heap : Heap}
    (heq : setupAllocator lim memUpper array = .ok (heap, array')) (hd : d ∈ array)
    (hword : d.stop < 2 ^ 64) : d.stop ≤ lastPage := by
  obtain ⟨ranges, -, hgaps, rfl, hne, -⟩ := setupAllocator_eq_ok heq
  cases ranges with
  | nil => exact absurd hne (Nat.lt_irrefl 0)
  | cons r ranges => exact gaps_below hgaps hd hword

structure Heap.Fresh (heap : Heap) : Prop where
  nonempty : heap.start < heap.stop
  below : heap.stop < 2 ^ 32
  top : heap.top = heap.stop
  topdown : heap.topdown = true

theorem setupAllocator_ok {lim : Limits} {memUpper : Nat} {heap : Heap} (h : InOrder (2 ^ 64 - 1) array)
    (heq : setupAllocator lim memUpper array = .ok (heap, array')) :
    HeapOk array (heapLimit lim memUpper) heap ∧ heap.Fresh ∧ InOrder lastPage array' := by
  replace h : InOrder lastPage array :=
    ⟨h.nonempty, h.ordered, fun d hd => setupAllocator_below heq hd (Nat.lt_of_le_pred (by decide) (h.below d hd))⟩
  have hlow := heapLimit_lt lim memUpper
  have hlimit : heapLimit lim memUpper ≤ lastPage := by
    unfold lastPage
    omega
  obtain ⟨ranges, best, hgaps, hbest, hne, hreg, rfl⟩ := setupAllocator_eq_ok heq
  by_cases hle : biosmemEnd ≤ heapLimit lim memUpper
  · have hfuel : (heapLimit lim memUpper - biosmemEnd) / pageSize + 2 ≤ heapLimit lim memUpper / pageSize + 2 := by
      unfold pageSize
      omega
    obtain ⟨_, hgaps', hg⟩ := gaps_spec h hlimit hle hfuel
    cases hgaps.symm.trans hgaps'
    obtain ⟨hmem, -, hall⟩ := foldl_largest ranges (0, 0)
    rw [hbest] at hmem hall
    -- the heap is one of the gaps
    have hmem : best ∈ ranges := by
      refine hmem.resolve_left fun h0 => ?_
      rw [h0] at hne
      exact absurd hne (Nat.lt_irrefl 0)
    obtain ⟨hs, he, hlt⟩ := hg.aligned best hmem
    have hin : ∀ p, Aligned p → best.1 ≤ p → p < best.2 → Unused array p :=
      fun p hp h1 h2 => ((hg.pages p hp).mp ⟨best, hmem, h1, h2⟩).2.2
    have hstop : best.2 ≤ heapLimit lim memUpper := by
      have hp : Aligned (best.2 - pageSize) := by
        unfold Aligned pageSize at he ⊢
        omega
      have hpage : best.1 ≤ best.2 - pageSize ∧ best.2 - pageSize < best.2 ∧
          best.2 - pageSize + pageSize = best.2 := by
        unfold Aligned pageSize at hs he
        unfold pageSize
        omega
      have := ((hg.pages _ hp).mp ⟨best, hmem, hpage.1, hpage.2.1⟩).2.1
      omega
    refine ⟨⟨⟨hs, he⟩, avoids_of_unused hs h hlt hin, fun r hr1 hr2 hlow hhigh havoid => ?_⟩,
      ⟨hlt, Nat.lt_of_le_of_lt hstop hlow, rfl, rfl⟩,
      h.registerBootData (Nat.le_trans hstop hlimit) hreg⟩
    rcases Nat.lt_or_ge r.1 r.2 with hlt' | hge
    · -- the range lies in one gap
      have hfree : ∀ p, Aligned p → r.1 ≤ p → p < r.2 → Unused array p :=
        fun p hp => unused_of_avoids havoid hr2 hp
      have hfirst : r.1 + pageSize ≤ r.2 := by
        unfold Aligned pageSize at hr1 hr2
        unfold pageSize
        omega
      obtain ⟨g, hgmem, hg1, hg2⟩ := (hg.pages r.1 hr1).mpr
        ⟨hlow, by omega, hfree r.1 hr1 (Nat.le_refl _) hlt'⟩
      have hge : r.2 ≤ g.2 := by
        refine Nat.le_of_not_lt fun hlt'' => ?_
        obtain ⟨-, hga, -⟩ := hg.aligned g hgmem
        rcases hg.closed g hgmem with hend | hused
        · unfold Aligned pageSize at hga hr2
          unfold pageSize at hend
          omega
        · exact hused (hfree g.2 hga (by omega) hlt'')
      have := hall g hgmem
      dsimp only
      omega
    · omega
  · -- the search would begin beyond its end
    rw [gaps, findAvail, if_neg hle] at hgaps
    cases hgaps

/-! ## Allocation -/

/-- What allocations are to return: ranges of the heap that do not overlap. -/
structure AllocsOk (heap : Heap) (ranges : List (Nat × Nat)) : Prop where
  inside : ∀ r ∈ ranges, heap.start ≤ r.1 ∧ r.2 ≤ heap.stop
  apart : ranges.Pairwise fun r r' => r.2 ≤ r'.1 ∨ r'.2 ≤ r.1

theorem bootalloc_ok {heap heap' : Heap} {n addr : Nat} (hdown : heap.topdown = true)
    (htop : heap.top < 2 ^ 32) (heq : bootalloc heap n = .ok (addr, heap')) :
    heap' = { heap with top := addr } ∧ heap.start ≤ addr ∧ addr + pagePtoa n = heap.top := by
  unfold bootalloc at heq
  by_cases hzero : pagePtoa n = 0
  · rw [if_pos hzero] at heq
    cases heq
  · rw [if_neg hzero, if_pos hdown] at heq
    obtain ⟨hin, heq⟩ := of_ite_error heq
    cases heq
    have hsize : pagePtoa n < 2 ^ 32 := mod_lt _ (by decide)
    refine ⟨rfl, by omega, ?_⟩
    unfold sub64 at hin ⊢
    omega

theorem pagePtoa_of_lt {n : Nat} (h : n < 2 ^ 20) : pagePtoa n = n * pageSize := by
  unfold pagePtoa pageSize
  omega

theorem bootallocs_below : ∀ {requests : List Nat} {heap : Heap} {ranges : List (Nat × Nat)},
    heap.topdown = true → heap.top < 2 ^ 32 → (∀ n ∈ requests, n < 2 ^ 20) →
    bootallocs heap requests = .ok ranges →
    (∀ r ∈ ranges, heap.start ≤ r.1 ∧ r.2 ≤ heap.top) ∧ ranges.Pairwise fun r r' => r'.2 ≤ r.1
  | [], _, _, _, _, _, heq => by
    cases heq
    exact ⟨fun r hr => absurd hr not_mem_nil, List.Pairwise.nil⟩
  | n :: requests, heap, ranges, hdown, htop, hsmall, heq => by
    rw [bootallocs] at heq
    split at heq
    · cases heq
    rename_i addr heap' halloc
    split at heq
    · cases heq
    rename_i ranges' hrest
    cases heq
    obtain ⟨rfl, hstart, hsize⟩ := bootalloc_ok hdown htop halloc
    rw [pagePtoa_of_lt (hsmall n mem_cons_self)] at hsize
    have hdown' : { heap with top := addr }.topdown = true := hdown
    obtain ⟨hin, hpair⟩ := bootallocs_below hdown' (by dsimp only; omega)
      (fun n' hn' => hsmall n' (mem_cons_of_mem n hn')) hrest
    refine ⟨fun r hr => ?_, pairwise_cons.mpr ⟨fun r hr => (hin r hr).2, hpair⟩⟩
    rcases mem_cons.mp hr with rfl | hr
    · exact ⟨hstart, Nat.le_of_eq hsize⟩
    · obtain ⟨h1, h2⟩ := hin r hr
      exact ⟨h1, by dsimp only at h2; omega⟩

theorem bootallocs_large : ∀ {requests : List Nat} {heap : Heap} {ranges : List (Nat × Nat)} {n : Nat},
    heap.topdown = true → heap.top < 2 ^ 32 → n ∈ requests → 2 ^ 20 ≤ n →
    bootallocs heap requests = .ok ranges → ∃ r ∈ ranges, 2 ^ 32 ≤ r.2
  | [], _, _, _, _, _, hn, _, _ => absurd hn not_mem_nil
  | n :: requests, heap, ranges, n', hdown, htop, hn, hlarge, heq => by
    rw [bootallocs] at heq
    split at heq
    · cases heq
    rename_i addr heap' halloc
    split at heq
    · cases heq
    rename_i ranges' hrest
    cases heq
    obtain ⟨rfl, -, hsize⟩ := bootalloc_ok hdown htop halloc
    rcases mem_cons.mp hn with rfl | hn
    · refine ⟨_, mem_cons_self, ?_⟩
      unfold pageSize
      omega
    · have hdown' : { heap with top := addr }.topdown = true := hdown
      obtain ⟨r, hr, hbeyond⟩ := bootallocs_large hdown' (by dsimp only; omega) hn hlarge hrest
      exact ⟨r, mem_cons_of_mem _ hr, hbeyond⟩

theorem bootallocs_ok_iff {heap : Heap} {requests : List Nat} {ranges : List (Nat × Nat)} (h : heap.Fresh)
    (heq : bootallocs heap requests = .ok ranges) :
    AllocsOk heap ranges ↔ ∀ n ∈ requests, n < 2 ^ 20 := by
  have htop : heap.top < 2 ^ 32 := by
    rw [h.top]
    exact h.below
  constructor
  · intro hok n hn
    refine Nat.lt_of_not_le fun hlarge => ?_
    obtain ⟨r, hr, hbeyond⟩ := bootallocs_large h.topdown htop hn hlarge heq
    have := (hok.inside r hr).2
    have := h.below
    omega
  · intro hsmall
    obtain ⟨hin, hpair⟩ := bootallocs_below h.topdown htop hsmall heq
    rw [h.top] at hin
    exact ⟨hin, hpair.imp .inr⟩

end Mach.I386at.Biosmem
