import Mach.I386at.BiosmemBoot

/-!
# The gaps between boot data

`biosmem_find_avail` clips an interval at each range of boot data in turn. As the ranges are
in order it finds the first gap, and all pages before that are in use. So the loop that
starts again at the end of each gap finds all pages that are not.
-/

namespace Mach.I386at.Biosmem

open List

/-! ## Pages -/

def Aligned (p : Nat) : Prop := p % pageSize = 0

def Meets (d : BootData) (p : Nat) : Prop := d.start < p + pageSize ∧ p < d.stop

def Unused (array : List BootData) (p : Nat) : Prop := ∀ d ∈ array, ¬Meets d p

def lastPage : Nat := 2 ^ 64 - 4096

structure InOrder (bound : Nat) (array : List BootData) : Prop where
  nonempty : ∀ d ∈ array, d.start < d.stop
  ordered : array.Pairwise fun d d' => d.stop ≤ d'.start
  below : ∀ d ∈ array, d.stop ≤ bound

variable {array : List BootData} {d : BootData} {p start stop : Nat}

theorem aligned_pageTrunc (x : Nat) : Aligned (pageTrunc x) := by
  unfold Aligned pageTrunc pageSize
  omega

theorem pageTrunc_le (x : Nat) : pageTrunc x ≤ x := by
  unfold pageTrunc pageSize
  omega

theorem pageTrunc_le_iff (hp : Aligned p) (x : Nat) : pageTrunc x ≤ p ↔ x < p + pageSize := by
  unfold Aligned pageSize at hp
  unfold pageTrunc pageSize
  omega

theorem add_le_pageTrunc_iff (hp : Aligned p) (x : Nat) : p < pageTrunc x ↔ p + pageSize ≤ x := by
  unfold Aligned pageSize at hp
  unfold pageTrunc pageSize
  omega

theorem pageRound_eq {x : Nat} (h : x ≤ lastPage) : pageRound x = (x + 4095) / 4096 * 4096 := by
  unfold lastPage at h
  unfold pageRound pageSize
  omega

theorem aligned_pageRound {x : Nat} (h : x ≤ lastPage) : Aligned (pageRound x) := by
  rw [pageRound_eq h]
  unfold Aligned pageSize
  omega

theorem le_pageRound {x : Nat} (h : x ≤ lastPage) : x ≤ pageRound x := by
  rw [pageRound_eq h]
  omega

theorem pageRound_le_iff {x : Nat} (h : x ≤ lastPage) (hp : Aligned p) : pageRound x ≤ p ↔ x ≤ p := by
  rw [pageRound_eq h]
  unfold Aligned pageSize at hp
  omega

theorem meets_iff (hd : d.stop ≤ lastPage) (hp : Aligned p) :
    Meets d p ↔ pageTrunc d.start ≤ p ∧ p < pageRound d.stop := by
  have h1 := pageTrunc_le_iff hp d.start
  have h2 := pageRound_le_iff hd hp
  unfold Meets
  omega

theorem not_meets (hd : d.stop ≤ lastPage) (hp : Aligned p)
    (h : p < pageTrunc d.start ∨ pageRound d.stop ≤ p) : ¬Meets d p := by
  intro hmeets
  have := (meets_iff hd hp).mp hmeets
  omega

theorem InOrder.tail {bound : Nat} (h : InOrder bound (d :: array)) : InOrder bound array :=
  ⟨fun d' hd' => h.nonempty d' (mem_cons_of_mem d hd'), (pairwise_cons.mp h.ordered).2,
    fun d' hd' => h.below d' (mem_cons_of_mem d hd')⟩

theorem InOrder.unused_of_lt (h : InOrder lastPage (d :: array)) (hp : Aligned p) (hlt : p < pageTrunc d.start) :
    Unused array p := by
  intro d' hd' hmeets
  have hnext := (pairwise_cons.mp h.ordered).1 d' hd'
  have hne := h.nonempty d mem_cons_self
  have h1 := pageTrunc_le_iff hp d.start
  have hstart := hmeets.1
  omega

/-! ## The first gap -/

/-- What a search for a gap in the pages from `a` to `b` is to find. -/
def FirstGap (array : List BootData) (a b : Nat) : Option (Nat × Nat) → Prop
  | none => ∀ p, Aligned p → a ≤ p → p < b → ¬Unused array p
  | some (s, e) => Aligned s ∧ Aligned e ∧ a ≤ s ∧ s < e ∧ e ≤ b ∧
      (∀ p, Aligned p → a ≤ p → p < s → ¬Unused array p) ∧
      (∀ p, Aligned p → s ≤ p → p < e → Unused array p) ∧
      (e = b ∨ ¬Unused array e)

theorem unused_cons : Unused (d :: array) p ↔ ¬Meets d p ∧ Unused array p := forall_mem_cons

theorem FirstGap.cons {rest : List BootData} {a a' b b' s e : Nat} (h : FirstGap rest a' b' (some (s, e)))
    (ha : a ≤ a') (hb : b' ≤ b) (hbefore : ∀ p, Aligned p → a ≤ p → p < a' → ¬Unused (d :: rest) p)
    (hd : ∀ p, Aligned p → a' ≤ p → p < b' → ¬Meets d p) (hend : b' = b ∨ ¬Unused (d :: rest) b') :
    FirstGap (d :: rest) a b (some (s, e)) := by
  obtain ⟨hs, he, has, hse, heb, hbefore', hin, hend'⟩ := h
  refine ⟨hs, he, by omega, hse, by omega, fun p hp h1 h2 hu => ?_, fun p hp h1 h2 => ?_, ?_⟩
  · rcases Nat.lt_or_ge p a' with hlt | hge
    · exact hbefore p hp h1 hlt hu
    · exact hbefore' p hp hge h2 (unused_cons.mp hu).2
  · exact unused_cons.mpr ⟨hd p hp (by omega) (by omega), hin p hp h1 h2⟩
  · rcases hend' with rfl | hend'
    · exact hend
    · exact .inr fun hu => hend' (unused_cons.mp hu).2

theorem clipLoop_spec : ∀ {array : List BootData} {a b : Nat}, InOrder lastPage array → Aligned a → Aligned b →
    a < b → ∃ r, clipLoop array a b = .ok r ∧ FirstGap array a b r
  | [], a, b, _, ha, hb, hlt => by
    refine ⟨some (a, b), rfl, ha, hb, Nat.le_refl a, hlt, Nat.le_refl b, fun p _ h1 h2 => ?_,
      fun p _ _ _ d hd => ?_, .inl rfl⟩
    · omega
    · cases hd
  | d :: rest, a, b, h, ha, hb, hlt => by
    have hstop := h.below d mem_cons_self
    have hround := le_pageRound hstop
    rw [clipLoop]
    unfold findAvailClip
    rw [if_neg (Nat.not_lt.mpr hround)]
    by_cases hout : pageRound d.stop ≤ a ∨ pageTrunc d.start ≥ b
    · -- the range is elsewhere
      rw [if_pos hout]
      obtain ⟨r, heq, hr⟩ := clipLoop_spec h.tail ha hb hlt
      refine ⟨r, heq, ?_⟩
      cases r with
      | none => exact fun p hp h1 h2 hu => hr p hp h1 h2 (unused_cons.mp hu).2
      | some r =>
        exact FirstGap.cons hr (Nat.le_refl a) (Nat.le_refl b) (fun p _ h1 h2 => by omega)
          (fun p hp h1 h2 => not_meets hstop hp (by omega)) (.inl rfl)
    · rw [if_neg hout]
      rw [not_or, Nat.not_le, Nat.not_le] at hout
      by_cases hafter : pageTrunc d.start > a
      · -- the gap ends at the range, or before it
        rw [if_pos hafter]
        obtain ⟨r, heq, hr⟩ := clipLoop_spec h.tail ha (aligned_pageTrunc d.start) hafter
        refine ⟨r, heq, ?_⟩
        cases r with
        | none => exact absurd (h.unused_of_lt ha hafter) (hr a ha (Nat.le_refl a) hafter)
        | some r =>
          refine FirstGap.cons hr (Nat.le_refl a) (Nat.le_of_lt hout.2) (fun p _ h1 h2 => by omega)
            (fun p hp h1 h2 => not_meets hstop hp (.inl (by omega))) (.inr fun hu => (unused_cons.mp hu).1 ?_)
          refine (meets_iff hstop (aligned_pageTrunc d.start)).mpr ⟨Nat.le_refl _, ?_⟩
          have := h.nonempty d mem_cons_self
          have := pageTrunc_le d.start
          omega
      · rw [if_neg hafter]
        have hmeets : ∀ p, Aligned p → a ≤ p → p < pageRound d.stop → ¬Unused (d :: rest) p := by
          intro p hp h1 h2 hu
          exact (unused_cons.mp hu).1 ((meets_iff hstop hp).mpr ⟨by omega, h2⟩)
        by_cases hall : pageRound d.stop ≥ b
        · -- the range goes on to the end
          rw [if_pos hall]
          exact ⟨none, rfl, fun p hp h1 h2 => hmeets p hp h1 (by omega)⟩
        · -- the gap begins after the range
          rw [if_neg hall]
          obtain ⟨r, heq, hr⟩ := clipLoop_spec h.tail (aligned_pageRound hstop) hb (Nat.not_le.mp hall)
          refine ⟨r, heq, ?_⟩
          cases r with
          | none =>
            intro p hp h1 h2 hu
            rcases Nat.lt_or_ge p (pageRound d.stop) with hlt' | hge
            · exact hmeets p hp h1 hlt' hu
            · exact hr p hp hge h2 (unused_cons.mp hu).2
          | some r =>
            exact FirstGap.cons hr (Nat.le_of_lt hout.1) (Nat.le_refl b) hmeets
              (fun p hp h1 h2 => not_meets hstop hp (.inr h1)) (.inl rfl)

theorem findAvail_spec (h : InOrder lastPage array) (hle : start ≤ stop) (hlast : stop ≤ lastPage) :
    ∃ r, findAvail array start stop = .ok r ∧
      FirstGap array (pageRound start) (pageTrunc stop) r := by
  have hstart : start ≤ lastPage := Nat.le_trans hle hlast
  unfold findAvail
  rw [if_pos hle]
  by_cases hnone : pageRound start ≥ pageTrunc stop
  · rw [if_pos (.inr hnone)]
    exact ⟨none, rfl, fun p _ h1 h2 => by omega⟩
  · have hround := le_pageRound hstart
    rw [if_neg (by omega)]
    exact clipLoop_spec h (aligned_pageRound hstart) (aligned_pageTrunc stop) (Nat.not_le.mp hnone)

/-! ## All gaps -/

/-- The ranges are the gaps from `start` to `stop`. -/
structure Gaps (array : List BootData) (start stop : Nat) (ranges : List (Nat × Nat)) : Prop where
  aligned : ∀ r ∈ ranges, Aligned r.1 ∧ Aligned r.2 ∧ r.1 < r.2
  ordered : ranges.Pairwise fun r r' => r.2 ≤ r'.1
  pages : ∀ p, Aligned p → ((∃ r ∈ ranges, r.1 ≤ p ∧ p < r.2) ↔
    start ≤ p ∧ p + pageSize ≤ stop ∧ Unused array p)
  closed : ∀ r ∈ ranges, stop < r.2 + pageSize ∨ ¬Unused array r.2

theorem gaps_spec (h : InOrder lastPage array) (hlast : stop ≤ lastPage) : ∀ {fuel start : Nat}, start ≤ stop →
    (stop - start) / pageSize + 2 ≤ fuel →
    ∃ ranges, gaps array stop fuel start = .ok ranges ∧ Gaps array start stop ranges
  | 0, _, _, hfuel => absurd hfuel (Nat.not_succ_le_zero _)
  | fuel + 1, start, hle, hfuel => by
    have hstart : start ≤ lastPage := Nat.le_trans hle hlast
    obtain ⟨r, heq, hr⟩ := findAvail_spec h hle hlast
    rw [gaps, heq]
    have hfrom : ∀ {p}, Aligned p → (pageRound start ≤ p ∧ p < pageTrunc stop ↔
        start ≤ p ∧ p + pageSize ≤ stop) := by
      intro p hp
      rw [pageRound_le_iff hstart hp, add_le_pageTrunc_iff hp]
    cases r with
    | none =>
      refine ⟨[], rfl, fun r hr => ?_, List.Pairwise.nil, fun p hp => ⟨?_, ?_⟩, fun r hr => ?_⟩
      · cases hr
      · rintro ⟨r, hr, -⟩
        cases hr
      · rintro ⟨h1, h2, hu⟩
        obtain ⟨h1, h2⟩ := (hfrom hp).mpr ⟨h1, h2⟩
        exact absurd hu (hr p hp h1 h2)
      · cases hr
    | some r =>
      obtain ⟨s, e⟩ := r
      obtain ⟨hs, he, has, hse, heb, hbefore, hin, hend⟩ := hr
      have hes : e ≤ stop := Nat.le_trans heb (pageTrunc_le stop)
      have hround := le_pageRound hstart
      have hpage : s + pageSize ≤ e := by
        unfold Aligned pageSize at hs he
        unfold pageSize
        omega
      have hfuel' : (stop - e) / pageSize + 2 ≤ fuel := by
        unfold pageSize at hpage hfuel ⊢
        omega
      obtain ⟨ranges, heq', hg⟩ := gaps_spec h hlast hes hfuel'
      dsimp only
      rw [heq']
      have hafter : ∀ r ∈ ranges, e ≤ r.1 := by
        intro r hr
        obtain ⟨hr1, _, hlt⟩ := hg.aligned r hr
        exact ((hg.pages r.1 hr1).mp ⟨r, hr, (Nat.le_refl _), hlt⟩).1
      refine ⟨(s, e) :: ranges, rfl, ?_, ?_, fun p hp => ⟨?_, ?_⟩, ?_⟩
      · intro r hr
        rcases mem_cons.mp hr with rfl | hr
        · exact ⟨hs, he, hse⟩
        · exact hg.aligned r hr
      · exact pairwise_cons.mpr ⟨hafter, hg.ordered⟩
      · rintro ⟨r, hr, h1, h2⟩
        rcases mem_cons.mp hr with rfl | hr
        · obtain ⟨h3, h4⟩ := (hfrom hp).mp ⟨Nat.le_trans has h1, Nat.lt_of_lt_of_le h2 heb⟩
          exact ⟨h3, h4, hin p hp h1 h2⟩
        · obtain ⟨h3, h4, hu⟩ := (hg.pages p hp).mp ⟨r, hr, h1, h2⟩
          exact ⟨by omega, h4, hu⟩
      · rintro ⟨h1, h2, hu⟩
        obtain ⟨h1', -⟩ := (hfrom hp).mpr ⟨h1, h2⟩
        rcases Nat.lt_or_ge p s with hlt | hge
        · exact absurd hu (hbefore p hp h1' hlt)
        · rcases Nat.lt_or_ge p e with hlt | hge'
          · exact ⟨(s, e), mem_cons_self, hge, hlt⟩
          · obtain ⟨r, hr, hpr⟩ := (hg.pages p hp).mpr ⟨hge', h2, hu⟩
            exact ⟨r, mem_cons_of_mem _ hr, hpr⟩
      · intro r hr
        rcases mem_cons.mp hr with rfl | hr
        · rcases hend with rfl | hend
          · left
            unfold pageTrunc pageSize
            omega
          · exact .inr hend
        · exact hg.closed r hr

end Mach.I386at.Biosmem
