import Mach.Vm.PageSeg

/-!
# What the buddy allocator keeps

`Buddied` is the invariant of the free lists. While a block is split or merged, one block is
in the hands of the allocator; together with the free pages it covers what was free and what
is freed, each page once. Putting a block into a list and taking one out are the two steps
of which splitting and merging consist.
-/

namespace Mach.Vm.PageSeg

open Lib Lib.Buddy Function List Multiset

variable {n : Nat} {s s' : Seg n} {p k : Nat}

structure Buddied (s : Seg n) : Prop where
  nodup : s.freePages.Nodup
  inside : ∀ p ∈ s.freePages, s.start ≤ p ∧ p < s.stop
  aligned : ∀ k < nrFreeLists, ∀ p ∈ (s.freeLists k).blocks, Aligned p k
  order : ∀ p k, k < nrFreeLists → (p ∈ (s.freeLists k).blocks ↔ s.order p = k)
  unlisted : ∀ p, s.order p < nrFreeLists ∨ s.order p = orderUnlisted
  size : ∀ k, (s.freeLists k).size = (s.freeLists k).blocks.length
  lonely : ∀ k < nrFreeLists - 1, ∀ p ∈ (s.freeLists k).blocks, buddy p k ∉ (s.freeLists k).blocks

structure Frame (s s' : Seg n) : Prop where
  pools : s'.cpuPools = s.cpuPools
  start : s'.start = s.start
  stop : s'.stop = s.stop
  type : s'.type = s.type

theorem Frame.refl (s : Seg n) : Frame s s := ⟨rfl, rfl, rfl, rfl⟩

theorem Frame.trans {s1 s2 s3 : Seg n} (h : Frame s1 s2) (h' : Frame s2 s3) : Frame s1 s3 :=
  ⟨h'.pools.trans h.pools, h'.start.trans h.start, h'.stop.trans h.stop, h'.type.trans h.type⟩

structure InHand (s : Seg n) (p k : Nat) : Prop where
  order : k < nrFreeLists
  aligned : Aligned p k
  nodup : (s.freePages + block p k).Nodup
  inside : ∀ x ∈ block p k, s.start ≤ x ∧ x < s.stop

theorem InHand.notMem {x : Nat} (h : InHand s p k) (hx : x ∈ block p k) : x ∉ s.freePages := by
  intro hfree
  exact Multiset.disjoint_left.mp (nodup_add.mp h.nodup).2.2 hfree hx

theorem mem_freePages {x : Nat} (hk : k < nrFreeLists) (hp : p ∈ (s.freeLists k).blocks)
    (hx : x ∈ block p k) : x ∈ s.freePages := mem_places.mpr ⟨k, hk, p, hp, hx⟩

/-! ## One block goes in, one comes out -/

section

section

variable (s)

theorem insertBlock_self (k p : Nat) :
    ((s.insertBlock k p).freeLists k).blocks = p :: (s.freeLists k).blocks :=
  congrArg FreeList.blocks (update_self k _ s.freeLists)

theorem insertBlock_size (k p : Nat) :
    ((s.insertBlock k p).freeLists k).size = (s.freeLists k).size + 1 :=
  congrArg FreeList.size (update_self k _ s.freeLists)

theorem insertBlock_other {j : Nat} (p : Nat) (h : j ≠ k) :
    (s.insertBlock k p).freeLists j = s.freeLists j := update_of_ne h _ _

theorem removeBlock_self (k p : Nat) :
    ((s.removeBlock k p).freeLists k).blocks = (s.freeLists k).blocks.erase p :=
  congrArg FreeList.blocks (update_self k _ s.freeLists)

theorem removeBlock_size (k p : Nat) :
    ((s.removeBlock k p).freeLists k).size = (s.freeLists k).size - 1 :=
  congrArg FreeList.size (update_self k _ s.freeLists)

theorem removeBlock_other {j : Nat} (p : Nat) (h : j ≠ k) :
    (s.removeBlock k p).freeLists j = s.freeLists j := update_of_ne h _ _

theorem insertBlock_frame (k p : Nat) : Frame s (s.insertBlock k p) := ⟨rfl, rfl, rfl, rfl⟩

theorem removeBlock_frame (k p : Nat) : Frame s (s.removeBlock k p) := ⟨rfl, rfl, rfl, rfl⟩

theorem freePages_insertBlock (hk : k < nrFreeLists) (p : Nat) :
    (s.insertBlock k p).freePages = s.freePages + block p k := by
  refine places_add hk (fun j hj => ?_) ?_
  · rw [insertBlock_other s p hj]
  · rw [insertBlock_self]
    rfl

end

theorem freePages_removeBlock (hk : k < nrFreeLists) (hp : p ∈ (s.freeLists k).blocks) :
    s.freePages = (s.removeBlock k p).freePages + block p k := by
  refine places_add hk (fun j hj => ?_) ?_
  · rw [removeBlock_other s p hj]
  · rw [removeBlock_self]
    exact (cons_erase (mem_coe.mpr hp)).symm

theorem Buddied.insertBlock (h : Buddied s) (hand : InHand s p k)
    (hbuddy : k < nrFreeLists - 1 → buddy p k ∉ (s.freeLists k).blocks) :
    Buddied (s.insertBlock k p) := by
  have hfree := freePages_insertBlock s hand.order p
  have hnotin : ∀ j < nrFreeLists, p ∉ (s.freeLists j).blocks := fun j hj hp =>
    hand.notMem (head_mem_block p k) (mem_freePages hj hp (head_mem_block p j))
  refine ⟨hfree ▸ hand.nodup, fun x hx => ?_, fun j hj q hq => ?_, fun q j hj => ?_, fun q => ?_,
    fun j => ?_, fun j hj q hq => ?_⟩
  · rw [hfree, mem_add] at hx
    exact hx.elim (h.inside x) (hand.inside x)
  · by_cases hjk : j = k
    · subst hjk
      rw [insertBlock_self] at hq
      rcases List.mem_cons.mp hq with rfl | hq
      · exact hand.aligned
      · exact h.aligned j hj q hq
    · rw [insertBlock_other s p hjk] at hq
      exact h.aligned j hj q hq
  · change _ ↔ update s.order p k q = j
    by_cases hqp : q = p
    · subst hqp
      rw [update_self]
      by_cases hjk : j = k
      · subst hjk
        rw [insertBlock_self]
        exact iff_of_true List.mem_cons_self rfl
      · rw [insertBlock_other s q hjk]
        exact iff_of_false (hnotin j hj) fun hkj => hjk hkj.symm
    · rw [update_of_ne hqp, ← h.order q j hj]
      by_cases hjk : j = k
      · subst hjk
        rw [insertBlock_self, List.mem_cons]
        exact or_iff_right hqp
      · rw [insertBlock_other s p hjk]
  · change update s.order p k q < _ ∨ update s.order p k q = _
    by_cases hqp : q = p
    · subst hqp
      rw [update_self]
      exact .inl hand.order
    · rw [update_of_ne hqp]
      exact h.unlisted q
  · by_cases hjk : j = k
    · subst hjk
      rw [insertBlock_self, insertBlock_size, length_cons, h.size j]
    · rw [insertBlock_other s p hjk]
      exact h.size j
  · by_cases hjk : j = k
    · subst hjk
      rw [insertBlock_self, List.mem_cons] at hq ⊢
      rintro (hb | hb)
      · -- the buddy is the new block itself
        rcases hq with rfl | hq
        · have hnext := buddy_buddy q j
          exact buddy_ne q j hb
        · rw [← hb, buddy_buddy] at hbuddy
          exact hbuddy hj hq
      · rcases hq with rfl | hq
        · exact hbuddy hj hb
        · exact h.lonely j hj q hq hb
    · rw [insertBlock_other s p hjk] at hq ⊢
      exact h.lonely j hj q hq

theorem Buddied.removeBlock (h : Buddied s) (hk : k < nrFreeLists) (hp : p ∈ (s.freeLists k).blocks) :
    Buddied (s.removeBlock k p) ∧ InHand (s.removeBlock k p) p k := by
  have hfree := freePages_removeBlock hk hp
  have hnodup := hfree ▸ h.nodup
  have hhand : InHand (s.removeBlock k p) p k :=
    ⟨hk, h.aligned k hk p hp, hnodup, fun x hx => h.inside x (mem_freePages hk hp hx)⟩
  have hnotin : ∀ j < nrFreeLists, p ∉ ((s.removeBlock k p).freeLists j).blocks := fun j hj hp =>
    hhand.notMem (head_mem_block p k) (mem_freePages hj hp (head_mem_block p j))
  have hsub : ∀ j q, q ∈ ((s.removeBlock k p).freeLists j).blocks → q ∈ (s.freeLists j).blocks := by
    intro j q hq
    by_cases hjk : j = k
    · subst hjk
      rw [removeBlock_self] at hq
      exact mem_of_mem_erase hq
    · rwa [removeBlock_other s p hjk] at hq
  refine ⟨⟨(nodup_add.mp hnodup).1, fun x hx => ?_, fun j hj q hq => ?_, fun q j hj => ?_,
    fun q => ?_, fun j => ?_, fun j hj q hq hb => ?_⟩, hhand⟩
  · exact h.inside x (hfree ▸ mem_add.mpr (.inl hx))
  · exact h.aligned j hj q (hsub j q hq)
  · change _ ↔ update s.order p orderUnlisted q = j
    by_cases hqp : q = p
    · subst hqp
      rw [update_self]
      refine iff_of_false (hnotin j hj) fun hj' => ?_
      rw [← hj'] at hj
      exact absurd hj (by decide)
    · rw [update_of_ne hqp, ← h.order q j hj]
      by_cases hjk : j = k
      · subst hjk
        rw [removeBlock_self]
        exact mem_erase_of_ne hqp
      · rw [removeBlock_other s p hjk]
  · change update s.order p orderUnlisted q < _ ∨ update s.order p orderUnlisted q = _
    by_cases hqp : q = p
    · subst hqp
      rw [update_self]
      exact .inr rfl
    · rw [update_of_ne hqp]
      exact h.unlisted q
  · by_cases hjk : j = k
    · subst hjk
      rw [removeBlock_self, removeBlock_size, length_erase_of_mem hp, h.size j]
    · rw [removeBlock_other s p hjk]
      exact h.size j
  · exact h.lonely j hj q (hsub j q hq) (hsub j _ hb)

end

/-! ## Splitting -/

theorem firstList_spec : ∀ {m i j : Nat}, s.firstList m i = some j →
    i ≤ j ∧ j < i + m ∧ (s.freeLists j).size ≠ 0 ∧ ∀ l, i ≤ l → l < j → (s.freeLists l).size = 0
  | 0, i, j, h => by cases h
  | m + 1, i, j, h => by
    rw [Seg.firstList] at h
    split at h
    next hsize =>
      cases h
      exact ⟨Nat.le_refl i, by omega, hsize, fun l hl hl' => absurd hl' (by omega)⟩
    next hsize =>
      obtain ⟨hle, hlt, hne, hempty⟩ := firstList_spec h
      refine ⟨by omega, by omega, hne, fun l hl hl' => ?_⟩
      by_cases hli : l = i
      · subst hli
        exact Decidable.not_not.mp hsize
      · exact hempty l (by omega) hl'

theorem firstList_none : ∀ {m i : Nat}, s.firstList m i = none →
    ∀ k, i ≤ k → k < i + m → (s.freeLists k).size = 0
  | 0, i, _, k, hik, hk => absurd hk (by omega)
  | m + 1, i, h, k, hik, hk => by
    rw [Seg.firstList] at h
    split at h
    · cases h
    next hsize =>
      by_cases hki : k = i
      · exact hki ▸ Decidable.not_not.mp hsize
      · exact firstList_none h k (by omega) (by omega)

variable {page order : Nat}

theorem splitLoop_spec : ∀ {i : Nat} {s : Seg n}, order ≤ i → Buddied s →
    InHand s page i → (∀ j, order ≤ j → j < i → (s.freeLists j).blocks = []) →
    Buddied (Seg.splitLoop page order i s) ∧ InHand (Seg.splitLoop page order i s) page order ∧
      (Seg.splitLoop page order i s).freePages + block page order = s.freePages + block page i ∧
      Frame s (Seg.splitLoop page order i s) ∧
      (Seg.splitLoop page order i s).nrFreePages = s.nrFreePages
  | 0, s, hle, h, hand, _ => by
    obtain rfl : order = 0 := Nat.le_zero.mp hle
    exact ⟨h, hand, rfl, Frame.refl s, rfl⟩
  | i + 1, s, hle, h, hand, hempty => by
    rw [Seg.splitLoop]
    by_cases hlt : i + 1 > order
    · rw [if_pos hlt]
      have hi : i < nrFreeLists := Nat.lt_of_succ_lt hand.order
      have hsplit : s.freePages + block page (i + 1) =
          s.freePages + block page i + block (page + 2 ^ i) i := by
        rw [block_succ, add_assoc]
      have hnodup := hand.nodup
      have hnodup' := hand.nodup
      rw [hsplit, add_right_comm] at hnodup'
      have hsub : ∀ x, x ∈ block page i ∨ x ∈ block (page + 2 ^ i) i → s.start ≤ x ∧ x < s.stop :=
        fun x hx => hand.inside x (block_succ page i ▸ mem_add.mpr hx)
      have hupper : InHand s (page + 2 ^ i) i :=
        ⟨hi, hand.aligned.upper, (nodup_add.mp hnodup').1, fun x hx => hsub x (.inr hx)⟩
      have hlist : (s.freeLists i).blocks = [] := hempty i (by omega) (by omega)
      have hins := h.insertBlock hupper fun _ => by rw [hlist]; exact not_mem_nil
      have hfree := freePages_insertBlock s hi (page + 2 ^ i)
      have hlower : InHand (s.insertBlock i (page + 2 ^ i)) page i :=
        ⟨hi, hand.aligned.of_succ, by rwa [hfree], fun x hx => hsub x (.inl hx)⟩
      have hbelow : ∀ j, order ≤ j → j < i → ((s.insertBlock i (page + 2 ^ i)).freeLists j).blocks = [] := by
        intro j hj hji
        rw [insertBlock_other s _ hji.ne]
        exact hempty j hj (by omega)
      obtain ⟨hb, hhand, hpages, hframe, hcount⟩ := splitLoop_spec (by omega) hins hlower hbelow
      refine ⟨hb, hhand, ?_, (insertBlock_frame s i (page + 2 ^ i)).trans hframe, hcount⟩
      rw [hpages, hfree, hsplit, add_right_comm]
    · obtain rfl : order = i + 1 := by omega
      rw [if_neg hlt]
      exact ⟨h, hand, rfl, Frame.refl s, rfl⟩

theorem allocFromBuddy_some {privileged : Bool} (h : Buddied s) (horder : order < nrFreeLists)
    (heq : s.allocFromBuddy order privileged = (some page, s')) :
    Buddied s' ∧ Aligned page order ∧ s.freePages = s'.freePages + block page order ∧ Frame s s' ∧
      s'.nrFreePages = s.nrFreePages - 2 ^ order := by
  unfold Seg.allocFromBuddy at heq
  split at heq
  · cases heq
  split at heq
  · cases heq
  split at heq
  · cases heq
  rename_i i hi
  split at heq
  · cases heq
  rename_i page' rest hblocks
  cases heq
  obtain ⟨hle, hlt, _, hempty⟩ := firstList_spec hi
  have hmem : page ∈ (s.freeLists i).blocks := hblocks ▸ mem_cons_self
  have hi' : i < nrFreeLists := by omega
  obtain ⟨hrem, hhand⟩ := h.removeBlock hi' hmem
  obtain ⟨hb, hhand', hpages, hframe, hcount⟩ := splitLoop_spec hle hrem hhand fun j hj hji => by
    rw [removeBlock_other s _ hji.ne]
    exact eq_nil_of_length_eq_zero ((h.size j) ▸ hempty j hj hji)
  refine ⟨⟨hb.nodup, hb.inside, hb.aligned, hb.order, hb.unlisted, hb.size, hb.lonely⟩,
    hhand'.aligned, ?_, ?_, ?_⟩
  · exact (freePages_removeBlock hi' hmem).trans hpages.symm
  · exact (removeBlock_frame s i page).trans ⟨hframe.pools, hframe.start, hframe.stop, hframe.type⟩
  · exact congrArg (· - 2 ^ order) hcount

theorem allocFromBuddy_none {privileged : Bool} (h : Buddied s)
    (heq : s.allocFromBuddy order privileged = (none, s')) :
    Buddied s' ∧ s'.freePages = s.freePages ∧ Frame s s' ∧ s'.nrFreePages = s.nrFreePages := by
  unfold Seg.allocFromBuddy at heq
  split at heq
  next =>
    cases heq
    exact ⟨h, rfl, Frame.refl _, rfl⟩
  next =>
    split at heq
    next =>
      cases heq
      exact ⟨⟨h.nodup, h.inside, h.aligned, h.order, h.unlisted, h.size, h.lonely⟩, rfl,
        ⟨rfl, rfl, rfl, rfl⟩, rfl⟩
    next =>
      split at heq
      next =>
        cases heq
        exact ⟨h, rfl, Frame.refl _, rfl⟩
      next =>
        split at heq
        next =>
          cases heq
          exact ⟨h, rfl, Frame.refl _, rfl⟩
        next => cases heq

/-! ## Merging -/

/-- What the loop that merges leaves: a block in hand whose buddy is not free, or which has
the highest order. -/
structure Merged (s : Seg n) (pa order : Nat) (r : Nat × Nat × Seg n) : Prop where
  buddied : Buddied r.2.2
  hand : InHand r.2.2 r.2.1 r.1
  alone : r.1 < nrFreeLists - 1 → buddy r.2.1 r.1 ∉ (r.2.2.freeLists r.1).blocks
  pages : r.2.2.freePages + block r.2.1 r.1 = s.freePages + block pa order
  frame : Frame s r.2.2
  count : r.2.2.nrFreePages = s.nrFreePages

theorem mergeLoop_spec : ∀ {m order pa : Nat} {s : Seg n}, nrFreeLists ≤ m + order + 1 → Buddied s →
    InHand s pa order → Merged s pa order (Seg.mergeLoop m order pa s)
  | 0, order, pa, s, hm, h, hand =>
    ⟨h, hand, fun hlt => absurd hlt (by simp only [Seg.mergeLoop]; omega), rfl, Frame.refl s, rfl⟩
  | m + 1, order, pa, s, hm, h, hand => by
    rw [Seg.mergeLoop]
    by_cases hlt : order < nrFreeLists - 1
    · rw [if_pos hlt]
      by_cases hout : buddy pa order < s.start ∨ s.stop ≤ buddy pa order
      · rw [if_pos hout]
        refine ⟨h, hand, fun _ hb => ?_, rfl, Frame.refl s, rfl⟩
        have := h.inside (buddy pa order) (mem_freePages hand.order hb (head_mem_block _ order))
        omega
      · rw [if_neg hout]
        by_cases horder : s.order (buddy pa order) = order
        · rw [if_neg (not_not_intro horder)]
          have hmem := (h.order _ order hand.order).mpr horder
          obtain ⟨hrem, hbhand⟩ := h.removeBlock hand.order hmem
          have hfree := freePages_removeBlock hand.order hmem
          have hmerge : (s.removeBlock order (buddy pa order)).freePages +
              block (around pa (order + 1)) (order + 1) = s.freePages + block pa order := by
            rw [← block_add_buddy hand.aligned, hfree]
            abel
          have hhand : InHand (s.removeBlock order (buddy pa order)) (around pa (order + 1)) (order + 1) := by
            refine ⟨by omega, aligned_around pa (order + 1), hmerge ▸ hand.nodup, fun x hx => ?_⟩
            rw [← block_add_buddy hand.aligned, mem_add] at hx
            exact hx.elim (hand.inside x) (hbhand.inside x)
          obtain ⟨hb, hhand', hbuddy, hpages, hframe, hcount⟩ :=
            mergeLoop_spec (m := m) (by omega) hrem hhand
          exact ⟨hb, hhand', hbuddy, hpages.trans hmerge,
            (removeBlock_frame s order (buddy pa order)).trans hframe, hcount⟩
        · rw [if_pos horder]
          exact ⟨h, hand, fun _ hb => horder ((h.order _ order hand.order).mp hb), rfl, Frame.refl s, rfl⟩
    · rw [if_neg hlt]
      exact ⟨h, hand, fun hlt' => absurd hlt' hlt, rfl, Frame.refl s, rfl⟩

theorem freeToBuddy_spec (h : Buddied s) (hand : InHand s page order) :
    Buddied (s.freeToBuddy page order) ∧
      (s.freeToBuddy page order).freePages = s.freePages + block page order ∧
      Frame s (s.freeToBuddy page order) ∧
      (s.freeToBuddy page order).nrFreePages = s.nrFreePages + 2 ^ order := by
  obtain ⟨hb, hhand, hbuddy, hpages, hframe, hcount⟩ := mergeLoop_spec (m := nrFreeLists) (by omega) h hand
  have hins := hb.insertBlock hhand hbuddy
  have hfree := freePages_insertBlock (Seg.mergeLoop nrFreeLists order page s).2.2 hhand.order
    (Seg.mergeLoop nrFreeLists order page s).2.1
  refine ⟨⟨hins.nodup, hins.inside, hins.aligned, hins.order, hins.unlisted, hins.size, hins.lonely⟩,
    hfree.trans hpages, ⟨hframe.pools, hframe.start, hframe.stop, hframe.type⟩, ?_⟩
  exact congrArg (· + 2 ^ order) hcount

end Mach.Vm.PageSeg
