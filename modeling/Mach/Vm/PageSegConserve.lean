import Mach.Vm.PageSegInv

/-!
# No page is lost

`Kept s lo hi rest` is the invariant of a segment whose pages outside the free lists and the
pools are `rest`. Every operation moves pages between these three places; the pages of the
segment are in one of them each, at all times.
-/

namespace Mach.Vm.PageSeg

open Lib Lib.Buddy Function List Option Multiset Finset Seg

variable {n : Nat} {s s' : Seg n} {rest : Multiset Nat} {lo hi page order : Nat} {cpu : Fin n}

/-- The segment has the pages from `lo` up to `hi`, and those in use are `rest`. -/
structure Kept (s : Seg n) (lo hi : Nat) (rest : Multiset Nat) : Prop where
  buddied : Buddied s
  start : s.start = lo
  stop : s.stop = hi
  count : s.nrFreePages = s.freePages.card
  pages : s.freePages + s.poolPages + rest = Multiset.Ico lo hi
  pools : ∀ cpu, (s.cpuPools cpu).nrPages = (s.cpuPools cpu).pages.length
  types : ∀ p ∈ s.freePages + s.poolPages, s.type p = .free

theorem Kept.nodup (h : Kept s lo hi rest) : (s.freePages + s.poolPages + rest).Nodup :=
  h.pages ▸ nodup_Ico

variable {x : Nat} {privileged : Bool}

theorem poolPages_eq (h : s'.cpuPools = s.cpuPools) : s'.poolPages = s.poolPages := by
  unfold poolPages
  rw [h]

theorem Kept.freeToBuddy (h : Kept s lo hi (rest + block page order)) (horder : order < nrFreeLists)
    (haligned : Aligned page order) (htype : ∀ x ∈ block page order, s.type x = .free) :
    Kept (s.freeToBuddy page order) lo hi rest ∧ (s.freeToBuddy page order).type = s.type := by
  have hsum : s.freePages + block page order + (s.poolPages + rest) =
      s.freePages + s.poolPages + (rest + block page order) := by abel
  have hhand : InHand s page order := by
    refine ⟨horder, haligned, ?_, fun x hx => ?_⟩
    · have hnodup := h.nodup
      rw [← hsum] at hnodup
      exact (nodup_add.mp hnodup).1
    · have hx' : x ∈ s.freePages + s.poolPages + (rest + block page order) :=
        Multiset.mem_add.mpr (.inr (Multiset.mem_add.mpr (.inr hx)))
      rw [h.pages, ← h.start, ← h.stop] at hx'
      exact Multiset.mem_Ico.mp hx'
  obtain ⟨hb, hfree, hframe, hcount⟩ := freeToBuddy_spec h.buddied hhand
  have hpool := poolPages_eq hframe.pools
  refine ⟨⟨hb, hframe.start.trans h.start, hframe.stop.trans h.stop, ?_, ?_, fun cpu => ?_,
    fun p hp => ?_⟩, hframe.type⟩
  · rw [hcount, hfree, card_add, card_block, h.count]
  · rw [hpool, hfree, ← h.pages]
    abel
  · rw [hframe.pools]
    exact h.pools cpu
  · rw [hframe.type]
    rw [hpool, hfree, Multiset.mem_add, Multiset.mem_add] at hp
    rcases hp with (hp | hp) | hp
    · exact h.types p (Multiset.mem_add.mpr (.inl hp))
    · exact htype p hp
    · exact h.types p (Multiset.mem_add.mpr (.inr hp))

theorem poolPages_setPool {pool : CpuPool} (h : (pool.pages : Multiset Nat) =
    page ::ₘ ((s.cpuPools cpu).pages : Multiset Nat)) :
    (s.setPool cpu pool).poolPages = s.poolPages + {page} := by
  have hrest : ∑ c ∈ Finset.univ.erase cpu, (((s.setPool cpu pool).cpuPools c).pages : Multiset Nat) =
      ∑ c ∈ Finset.univ.erase cpu, ((s.cpuPools c).pages : Multiset Nat) := by
    refine sum_congr rfl fun c hc => ?_
    rw [setPool]
    dsimp only
    rw [update_of_ne (ne_of_mem_erase hc)]
  have hself : (((s.setPool cpu pool).cpuPools cpu).pages : Multiset Nat) = pool.pages := by
    rw [setPool]
    dsimp only
    rw [update_self]
  rw [poolPages, poolPages, ← add_sum_erase _ _ (mem_univ cpu),
    ← add_sum_erase _ _ (mem_univ cpu), hrest, hself, h, ← singleton_add]
  abel

theorem setPool_pools {pool : CpuPool} (h : ∀ c, (s.cpuPools c).nrPages = (s.cpuPools c).pages.length)
    (hpool : pool.nrPages = pool.pages.length) (c : Fin n) :
    ((s.setPool cpu pool).cpuPools c).nrPages = ((s.setPool cpu pool).cpuPools c).pages.length := by
  rw [setPool]
  dsimp only
  by_cases hc : c = cpu
  · subst hc
    rw [update_self]
    exact hpool
  · rw [update_of_ne hc]
    exact h c

theorem Buddied.setPool (h : Buddied s) (pool : CpuPool) : Buddied (s.setPool cpu pool) :=
  ⟨h.nodup, h.inside, h.aligned, h.order, h.unlisted, h.size, h.lonely⟩

theorem Kept.poolPush (h : Kept s lo hi (rest + {page})) (htype : s.type page = .free) :
    Kept (s.poolPush cpu page) lo hi rest := by
  have hpool : (s.poolPush cpu page).poolPages = s.poolPages + {page} := poolPages_setPool rfl
  have hfree : (s.poolPush cpu page).freePages = s.freePages := rfl
  refine ⟨h.buddied.setPool _, h.start, h.stop, h.count, ?_, setPool_pools h.pools ?_, fun p hp => ?_⟩
  · rw [hpool, hfree, ← h.pages]
    abel
  · rw [length_cons, h.pools cpu]
  · rw [hpool, ← add_assoc, Multiset.mem_add, Multiset.mem_singleton] at hp
    rcases hp with hp | rfl
    · exact h.types p hp
    · exact htype

section

variable (h : Kept s lo hi rest)
include h

theorem Kept.notMem (hx : x ∈ rest) : x ∉ s.freePages + s.poolPages :=
  fun hfree => disjoint_left.mp (nodup_add.mp h.nodup).2.2 hfree hx

/-! ## The free lists -/

theorem Kept.allocFromBuddy_some (horder : order < nrFreeLists)
    (heq : s.allocFromBuddy order privileged = (some page, s')) :
    Kept s' lo hi (rest + block page order) ∧ Aligned page order ∧ ∀ x ∈ block page order, s'.type x = .free := by
  obtain ⟨hb, haligned, hfree, hframe, hcount⟩ := PageSeg.allocFromBuddy_some h.buddied horder heq
  have hpool := poolPages_eq hframe.pools
  have hsub : ∀ x, x ∈ s'.freePages ∨ x ∈ block page order → x ∈ s.freePages :=
    fun x hx => hfree ▸ mem_add.mpr hx
  refine ⟨⟨hb, hframe.start.trans h.start, hframe.stop.trans h.stop, ?_, ?_, fun cpu => ?_,
    fun p hp => ?_⟩, haligned, fun x hx => ?_⟩
  · rw [hcount, h.count, hfree, card_add, card_block, Nat.add_sub_cancel]
  · rw [← h.pages, hpool, hfree]
    abel
  · rw [hframe.pools]
    exact h.pools cpu
  · rw [hframe.type]
    rw [hpool, mem_add] at hp
    exact h.types p (mem_add.mpr (hp.imp_left fun hp => hsub p (.inl hp)))
  · rw [hframe.type]
    exact h.types x (mem_add.mpr (.inl (hsub x (.inr hx))))

theorem Kept.allocFromBuddy_none
    (heq : s.allocFromBuddy order privileged = (none, s')) : Kept s' lo hi rest := by
  obtain ⟨hb, hfree, hframe, hcount⟩ := PageSeg.allocFromBuddy_none h.buddied heq
  have hpool := poolPages_eq hframe.pools
  refine ⟨hb, hframe.start.trans h.start, hframe.stop.trans h.stop, ?_, ?_, fun cpu => ?_, fun p hp => ?_⟩
  · rw [hcount, hfree, h.count]
  · rw [hpool, hfree, h.pages]
  · rw [hframe.pools]
    exact h.pools cpu
  · rw [hpool, hfree] at hp
    rw [hframe.type]
    exact h.types p hp

/-! ## The pools -/

theorem Kept.poolPop (heq : s.poolPop cpu = (some page, s')) :
    Kept s' lo hi (rest + {page}) ∧ s'.type page = .free ∧ s'.type = s.type := by
  unfold Seg.poolPop at heq
  dsimp only at heq
  split at heq
  · cases heq
  rename_i page' pages hpages
  cases heq
  -- the pool before is the pool after with the page put back
  set s' := s.setPool cpu { s.cpuPools cpu with nrPages := (s.cpuPools cpu).nrPages - 1, pages := pages }
    with hs'
  have hpool : s.poolPages = s'.poolPages + {page} := by
    have hback : s = s'.setPool cpu (s.cpuPools cpu) := by
      rw [hs']
      simp only [Seg.setPool, update_idem, update_eq_self]
    have hself : (s'.cpuPools cpu).pages = pages := by
      rw [hs', Seg.setPool]
      dsimp only
      rw [update_self]
    conv_lhs => rw [hback]
    refine poolPages_setPool ?_
    rw [hself, hpages]
    rfl
  have hmem : page ∈ s.poolPages := by
    rw [hpool, Multiset.mem_add, Multiset.mem_singleton]
    exact .inr rfl
  have htypes : ∀ p ∈ s'.poolPages, p ∈ s.poolPages := fun p hp =>
    hpool ▸ Multiset.mem_add.mpr (.inl hp)
  refine ⟨⟨h.buddied.setPool _, h.start, h.stop, h.count, ?_, setPool_pools h.pools ?_, fun p hp => ?_⟩,
    h.types page (Multiset.mem_add.mpr (.inr hmem)), rfl⟩
  · change s.freePages + s'.poolPages + (rest + {page}) = Multiset.Ico lo hi
    rw [← h.pages, hpool]
    abel
  · rw [h.pools cpu, hpages, length_cons, Nat.add_sub_cancel]
  · exact h.types p (Multiset.mem_add.mpr ((Multiset.mem_add.mp hp).imp_right (htypes p)))

omit h in
theorem Kept.poolFill : ∀ {m i : Nat} {s s' : Seg n}, Kept s lo hi rest →
    Seg.poolFill cpu privileged m s = (i, s') → Kept s' lo hi rest
  | 0, i, s, s', h, heq => by
    cases heq
    exact h
  | m + 1, i, s, s', h, heq => by
    rw [Seg.poolFill] at heq
    split at heq
    next s1 halloc =>
      cases heq
      exact h.allocFromBuddy_none halloc
    next page s1 halloc =>
      cases heq
      obtain ⟨hk, _, htype⟩ := h.allocFromBuddy_some (by decide) halloc
      rw [block_zero] at hk
      exact (hk.poolPush (htype page (head_mem_block page 0))).poolFill rfl

omit h in
theorem Kept.poolDrain : ∀ {s : Seg n}, Kept s lo hi rest → ∀ cpu m,
    Kept (Seg.poolDrain cpu m s) lo hi rest ∧ (Seg.poolDrain cpu m s).type = s.type
  | _, h, _, 0 => ⟨h, rfl⟩
  | s, h, cpu, m + 1 => by
    rw [Seg.poolDrain]
    split
    next s1 hpop =>
      unfold Seg.poolPop at hpop
      dsimp only at hpop
      split at hpop
      next =>
        cases hpop
        exact ⟨h, rfl⟩
      next => cases hpop
    next page s1 hpop =>
      obtain ⟨hk, htype, htypes⟩ := h.poolPop hpop
      rw [← block_zero] at hk
      obtain ⟨hk', htypes'⟩ := hk.freeToBuddy (by decide) (Nat.mod_one page) fun x hx => by
        rw [block_zero, Multiset.mem_singleton] at hx
        rw [hx, htype]
      obtain ⟨hk'', htypes''⟩ := hk'.poolDrain cpu m
      exact ⟨hk'', htypes''.trans (htypes'.trans htypes)⟩

/-! ## Allocating and freeing -/

theorem Kept.setType (hle : block page order ≤ rest) (type : PageType) :
    Kept (s.setType page order type) lo hi rest := by
  refine ⟨⟨h.buddied.nodup, h.buddied.inside, h.buddied.aligned, h.buddied.order, h.buddied.unlisted,
    h.buddied.size, h.buddied.lonely⟩, h.start, h.stop, h.count, h.pages, h.pools, fun p hp => ?_⟩
  change (if page ≤ p ∧ p < page + 2 ^ order then type else s.type p) = .free
  rw [if_neg fun hin => h.notMem (mem_of_le hle (mem_block.mpr hin)) hp]
  exact h.types p hp

theorem Kept.allocFromPool {r : Option Nat} (heq : s.allocFromPool cpu privileged = (r, s')) :
    (∃ page, r = some page ∧ Kept s' lo hi (rest + {page})) ∨ (r = none ∧ Kept s' lo hi rest) := by
  have hpop : ∀ {s1 : Seg n}, Kept s1 lo hi rest → s1.poolPop cpu = (r, s') →
      (∃ page, r = some page ∧ Kept s' lo hi (rest + {page})) ∨ (r = none ∧ Kept s' lo hi rest) := by
    intro s1 h1 heq1
    cases r with
    | some page => exact .inl ⟨page, rfl, (h1.poolPop heq1).1⟩
    | none =>
      unfold Seg.poolPop at heq1
      dsimp only at heq1
      split at heq1
      next =>
        cases heq1
        exact .inr ⟨rfl, h1⟩
      next => cases heq1
  unfold Seg.allocFromPool at heq
  split at heq
  next =>
    dsimp only at heq
    have hfill : Kept (Seg.poolFill cpu privileged (s.cpuPools cpu).transferSize s).2 lo hi rest :=
      h.poolFill rfl
    split at heq
    next =>
      cases heq
      exact .inr ⟨rfl, hfill⟩
    next => exact hpop hfill heq
  next => exact hpop h heq

theorem Kept.alloc {type : PageType} (horder : order < nrFreeLists) :
    (∀ page, s.alloc cpu order type privileged = (some page, s') →
      Kept s' lo hi (rest + block page order) ∧ Aligned page order) ∧
    (s.alloc cpu order type privileged = (none, s') → Kept s' lo hi rest) := by
  unfold Seg.alloc
  by_cases h0 : order = 0
  · subst h0
    cases hpool : s.allocFromPool cpu privileged with
    | mk r s1 =>
      rcases h.allocFromPool hpool with ⟨page', rfl, hk⟩ | ⟨rfl, hk⟩
      · rw [← block_zero] at hk
        refine ⟨fun page heq => ?_, nofun⟩
        cases heq
        exact ⟨hk.setType (le_add_left _ _) type, Nat.mod_one _⟩
      · refine ⟨nofun, fun heq => ?_⟩
        cases heq
        exact hk
  · rw [if_neg h0]
    cases hbuddy : s.allocFromBuddy order privileged with
    | mk r s1 =>
      cases r with
      | some page' =>
        obtain ⟨hk, haligned, _⟩ := h.allocFromBuddy_some horder hbuddy
        refine ⟨fun page heq => ?_, nofun⟩
        cases heq
        exact ⟨hk.setType (le_add_left _ _) type, haligned⟩
      | none =>
        refine ⟨nofun, fun heq => ?_⟩
        cases heq
        exact h.allocFromBuddy_none hbuddy

end

theorem setType_block {type : PageType} (x : Nat) (hx : x ∈ block page order) :
    (s.setType page order type).type x = type := if_pos (mem_block.mp hx)

theorem Kept.free (h : Kept s lo hi (rest + block page order)) (horder : order < nrFreeLists)
    (haligned : Aligned page order) : Kept (s.free cpu page order) lo hi rest := by
  have hset := h.setType (le_add_left _ _) .free
  unfold Seg.free
  dsimp only
  split
  next h0 =>
    subst h0
    have htype : (s.setType page 0 .free).type page = .free := setType_block page (head_mem_block page 0)
    rw [block_zero] at hset
    split
    next =>
      obtain ⟨hk, htypes⟩ := hset.poolDrain cpu ((s.setType page 0 .free).cpuPools cpu).transferSize
      exact hk.poolPush (htypes ▸ htype)
    next => exact hset.poolPush htype
  next => exact (hset.freeToBuddy horder haligned setType_block).1

/-! ## Every run -/

theorem Sys.Init.kept {s : Sys n} (h : s.Init) : Kept s.seg s.seg.start s.seg.stop s.held := by
  have hlists : ∀ k, (s.seg.freeLists k).blocks = [] := fun k => by rw [h.lists k]
  have hfree : s.seg.freePages = 0 := by
    simp [freePages, places, hlists, coe_nil, sum_const_zero]
  have hpool : s.seg.poolPages = 0 := by
    simp only [poolPages, (h.pools _).2, coe_nil, sum_const_zero]
  refine ⟨⟨hfree ▸ nodup_zero, fun p hp => ?_, fun k _ p hp => ?_, fun p k hk => ?_, fun p => ?_,
    fun k => ?_, fun k _ p hp => ?_⟩, rfl, rfl, ?_, ?_, fun cpu => ?_, fun p hp => ?_⟩
  · rw [hfree] at hp
    exact absurd hp (notMem_zero p)
  · rw [hlists] at hp
    exact absurd hp not_mem_nil
  · rw [hlists, h.order]
    refine iff_of_false not_mem_nil fun hk' => ?_
    rw [← hk'] at hk
    exact absurd hk (by decide)
  · exact .inr (h.order p)
  · rw [h.lists k]
    rfl
  · rw [hlists] at hp
    exact absurd hp not_mem_nil
  · rw [h.count, hfree, card_zero]
  · rw [hfree, hpool, h.held, zero_add, zero_add]
  · rw [(h.pools cpu).1, (h.pools cpu).2, length_nil]
  · rw [hfree, hpool] at hp
    exact absurd hp (notMem_zero p)

theorem Kept.step {s s' : Sys n} {a : Action n} (h : Kept s.seg lo hi s.held)
    (hs : step s a = some s') : Kept s'.seg lo hi s'.held := by
  cases a with
  | alloc cpu order type privileged =>
    obtain ⟨horder, hs⟩ := ite_none_right_eq_some.mp hs
    split at hs
    next seg hnone =>
      cases hs
      exact (h.alloc horder).2 hnone
    next page seg hsome =>
      cases hs
      exact ((h.alloc horder).1 page hsome).1
  | free cpu page order =>
    obtain ⟨hlegal, ⟨⟩⟩ := ite_none_right_eq_some.mp hs
    obtain ⟨horder, haligned, hle⟩ := hlegal
    rw [← tsub_add_cancel_of_le hle] at h
    exact h.free horder haligned
  | manage page =>
    obtain ⟨hmem, ⟨⟩⟩ := ite_none_right_eq_some.mp hs
    rw [← tsub_add_cancel_of_le (singleton_le.mpr hmem), ← block_zero] at h
    have hset := h.setType (le_add_left _ _) .free
    have := (hset.freeToBuddy (by decide) (Nat.mod_one page) setType_block).1
    rwa [block_zero] at this

theorem reach_kept {s : Sys n} (h : (lts n).Reach anyStep s) :
    Kept s.seg s.seg.start s.seg.stop s.held := by
  refine Lts.Reach.inv (I := fun s => Kept s.seg s.seg.start s.seg.stop s.held)
    (fun _ h0 => Sys.Init.kept h0) (fun s a s' hk _ hs => ?_) h
  have hk' := Kept.step hk hs
  rw [hk'.start, hk'.stop]
  exact hk'

def Seg.InFree (s : Seg n) (x : Nat) : Prop :=
  ∃ k < nrFreeLists, ∃ p ∈ (s.freeLists k).blocks, p ≤ x ∧ x < p + 2 ^ k

def Seg.InPool (s : Seg n) (x : Nat) : Prop := ∃ cpu, x ∈ (s.cpuPools cpu).pages

theorem mem_freePages_iff : x ∈ s.freePages ↔ s.InFree x := by
  simp only [freePages, mem_places, mem_block, Seg.InFree]

theorem mem_poolPages_iff : x ∈ s.poolPages ↔ s.InPool x := by
  simp [poolPages, mem_sum, mem_univ, Seg.InPool]

/-- The pages of a segment are accounted for. -/
structure Conserved (s : Sys n) : Prop where
  disjoint : ∀ k < nrFreeLists, ∀ p ∈ (s.seg.freeLists k).blocks, ∀ j < nrFreeLists,
    ∀ q ∈ (s.seg.freeLists j).blocks, ∀ x, p ≤ x → x < p + 2 ^ k → q ≤ x → x < q + 2 ^ j → p = q ∧ k = j
  once : ∀ k < nrFreeLists, (s.seg.freeLists k).blocks.Nodup
  inside : ∀ k < nrFreeLists, ∀ p ∈ (s.seg.freeLists k).blocks, s.seg.start ≤ p ∧ p + 2 ^ k ≤ s.seg.stop
  aligned : ∀ k < nrFreeLists, ∀ p ∈ (s.seg.freeLists k).blocks, p % 2 ^ k = 0
  head : ∀ p k, k < nrFreeLists → (s.seg.order p = k ↔ p ∈ (s.seg.freeLists k).blocks)
  unlisted : ∀ p, (∀ k < nrFreeLists, p ∉ (s.seg.freeLists k).blocks) → s.seg.order p = orderUnlisted
  buddies : ∀ k < nrFreeLists - 1, ∀ p ∈ (s.seg.freeLists k).blocks,
    p ^^^ 2 ^ k ∉ (s.seg.freeLists k).blocks
  count : s.seg.nrFreePages = ∑ k ∈ Finset.range nrFreeLists, (s.seg.freeLists k).size * 2 ^ k
  /-- every page of the segment is at exactly one of the three places, and no other page is -/
  partition : ∀ x, s.seg.start ≤ x → x < s.seg.stop →
    (s.seg.InFree x ∧ ¬s.seg.InPool x ∧ x ∉ s.held) ∨ (¬s.seg.InFree x ∧ s.seg.InPool x ∧ x ∉ s.held) ∨
      (¬s.seg.InFree x ∧ ¬s.seg.InPool x ∧ x ∈ s.held)
  outside : ∀ x, s.seg.InFree x ∨ s.seg.InPool x ∨ x ∈ s.held → s.seg.start ≤ x ∧ x < s.seg.stop
  pooled : s.seg.poolPages.Nodup
  used : s.held.Nodup

theorem Kept.partition (h : Kept s lo hi rest) : (lo ≤ x → x < hi →
      (s.InFree x ∧ ¬s.InPool x ∧ x ∉ rest) ∨ (¬s.InFree x ∧ s.InPool x ∧ x ∉ rest) ∨
        (¬s.InFree x ∧ ¬s.InPool x ∧ x ∈ rest)) ∧
    (s.InFree x ∨ s.InPool x ∨ x ∈ rest → lo ≤ x ∧ x < hi) := by
  obtain ⟨hfp, _, hrest⟩ := nodup_add.mp h.nodup
  obtain ⟨_, _, hdisj⟩ := nodup_add.mp hfp
  have h1 : s.InFree x → ¬s.InPool x := fun hf hp =>
    Multiset.disjoint_left.mp hdisj (mem_freePages_iff.mpr hf) (mem_poolPages_iff.mpr hp)
  have h2 : x ∈ rest → ¬s.InFree x ∧ ¬s.InPool x := fun hr =>
    ⟨fun hf => h.notMem hr (Multiset.mem_add.mpr (.inl (mem_freePages_iff.mpr hf))),
      fun hp => h.notMem hr (Multiset.mem_add.mpr (.inr (mem_poolPages_iff.mpr hp)))⟩
  have hmem : (lo ≤ x ∧ x < hi) ↔ (s.InFree x ∨ s.InPool x) ∨ x ∈ rest := by
    rw [← Multiset.mem_Ico, ← h.pages, Multiset.mem_add, Multiset.mem_add, mem_freePages_iff,
      mem_poolPages_iff]
  refine ⟨fun hlo hhi => ?_, fun hin => hmem.mpr (or_assoc.mpr hin)⟩
  rcases hmem.mp ⟨hlo, hhi⟩ with (hf | hp) | hr
  · exact .inl ⟨hf, h1 hf, fun hr => (h2 hr).1 hf⟩
  · exact .inr (.inl ⟨fun hf => h1 hf hp, hp, fun hr => (h2 hr).2 hp⟩)
  · exact .inr (.inr ⟨(h2 hr).1, (h2 hr).2, hr⟩)

theorem Kept.conserved {s : Sys n} (h : Kept s.seg s.seg.start s.seg.stop s.held) : Conserved s := by
  have hb := h.buddied
  obtain ⟨hfp, hused, _⟩ := nodup_add.mp h.nodup
  refine ⟨fun k hk p hp j hj q hq x h1 h2 h3 h4 => ?_, fun k hk => nodup_list hb.nodup hk,
    fun k hk p hp => ?_, hb.aligned, fun p k hk => (hb.order p k hk).symm, fun p hp => ?_, hb.lonely, ?_,
    fun x => h.partition.1, fun x => h.partition.2, (nodup_add.mp hfp).2.1, hused⟩
  · exact disjoint_of_nodup hb.nodup hk hp hj hq (mem_block.mpr ⟨h1, h2⟩) (mem_block.mpr ⟨h3, h4⟩)
  · have hpos := Nat.two_pow_pos k
    have hfirst := hb.inside p (mem_freePages hk hp (head_mem_block p k))
    have hlast := hb.inside (p + 2 ^ k - 1) (mem_freePages hk hp (mem_block.mpr (by omega)))
    omega
  · refine (hb.unlisted p).resolve_left fun hlt => ?_
    exact hp _ hlt ((hb.order p _ hlt).mpr rfl)
  · rw [h.count, freePages, card_places]
    exact sum_congr rfl fun k _ => by rw [hb.size k]

/-- **Page conservation.** In every state that is reached, the pages of the segment are
accounted for; and an allocation returns an aligned block of pages of the segment that
nobody used and that are in no free block and no pool any more. -/
theorem pages_conserved {s : Sys n} (h : (lts n).Reach anyStep s) : Conserved s ∧
    ∀ cpu order type privileged page seg, order < nrFreeLists →
      s.seg.alloc cpu order type privileged = (some page, seg) →
      page % 2 ^ order = 0 ∧ ∀ x, page ≤ x → x < page + 2 ^ order →
        (s.seg.start ≤ x ∧ x < s.seg.stop) ∧ x ∉ s.held ∧ ¬seg.InFree x ∧ ¬seg.InPool x := by
  have hkept := reach_kept h
  refine ⟨hkept.conserved, fun cpu order type privileged page seg horder heq => ?_⟩
  obtain ⟨hk, haligned⟩ := (hkept.alloc horder).1 page heq
  refine ⟨haligned, fun x h1 h2 => ?_⟩
  have hx : x ∈ block page order := mem_block.mpr ⟨h1, h2⟩
  have hin : x ∈ s.held + block page order := mem_add.mpr (.inr hx)
  have hnot := hk.notMem hin
  refine ⟨?_, fun hheld => ?_, fun hf => ?_, fun hp => ?_⟩
  · exact hk.partition.2 (.inr (.inr hin))
  · exact disjoint_left.mp (nodup_add.mp (nodup_add.mp hk.nodup).2.1).2.2 hheld hx
  · exact hnot (mem_add.mpr (.inl (mem_freePages_iff.mpr hf)))
  · exact hnot (mem_add.mpr (.inr (mem_poolPages_iff.mpr hp)))

def ninePages : Sys 1 where
  seg :=
    { cpuPools := fun _ => ⟨2, 1, 0, []⟩
      start := 3
      stop := 12
      order := fun _ => orderUnlisted
      type := fun _ => .reserved
      freeLists := fun _ => ⟨0, []⟩
      nrFreePages := 0
      minFreePages := 0
      lowFreePages := 0
      allocPaused := false }
  held := Multiset.Ico 3 12

def ninePagesRun : List (Action 1) :=
  [.manage 3, .manage 4, .manage 5, .manage 6, .manage 7, .manage 8, .manage 9, .manage 10, .manage 11,
    .alloc 0 2 .kernel true, .alloc 0 0 .kernel true]

theorem ninePages_init : (lts 1).init ninePages :=
  ⟨fun _ => rfl, fun _ => rfl, fun _ => ⟨rfl, rfl⟩, rfl, rfl⟩

theorem pages_conserved_ninePages : ∃ s, (lts 1).run ninePages ninePagesRun = some s ∧ s.held.card = 5 ∧
    Conserved s := by
  have hcard : ((lts 1).run ninePages ninePagesRun).map (fun s => s.held.card) = some 5 := by
    decide
  cases h : (lts 1).run ninePages ninePagesRun with
  | none =>
    rw [h] at hcard
    cases hcard
  | some s =>
    rw [h] at hcard
    have hreach := Lts.Reach.run ninePagesRun (.start ninePages_init) ((lts 1).okRun_any _ _) h
    exact ⟨s, rfl, Option.some.inj hcard, (pages_conserved hreach).1⟩

/-! ## When an allocation fails -/

theorem poolFill_length (h : Kept s lo hi rest) (cpu : Fin n) (privileged : Bool) (m : Nat) :
    ((Seg.poolFill cpu privileged m s).2.cpuPools cpu).pages.length =
      (s.cpuPools cpu).pages.length + (Seg.poolFill cpu privileged m s).1 := by
  induction m generalizing s rest with
  | zero => rfl
  | succ m ih =>
    rw [Seg.poolFill]
    split
    next s1 halloc => rw [(PageSeg.allocFromBuddy_none h.buddied halloc).2.2.1.pools, Nat.add_zero]
    next page s1 halloc =>
      obtain ⟨hk, -, htype⟩ := h.allocFromBuddy_some (by decide) halloc
      rw [block_zero] at hk
      obtain ⟨-, -, -, hframe, -⟩ := PageSeg.allocFromBuddy_some h.buddied (by decide) halloc
      have hpush : ((s1.poolPush cpu page).cpuPools cpu).pages = page :: (s.cpuPools cpu).pages := by
        change (update s1.cpuPools cpu _ cpu).pages = _
        rw [update_self, hframe.pools]
      dsimp only
      rw [ih (hk.poolPush (htype page (head_mem_block page 0))), hpush, length_cons]
      omega

theorem poolPop_none : (s.poolPop cpu).1 = none ↔ (s.cpuPools cpu).pages = [] := by
  unfold Seg.poolPop
  dsimp only
  split
  next h => exact iff_of_true rfl h
  next h => exact iff_of_false nofun (h ▸ List.cons_ne_nil _ _)

theorem allocFromPool_none (h : Kept s lo hi rest) (hfill : 0 < (s.cpuPools cpu).transferSize) :
    (s.allocFromPool cpu true).1 = none ↔
      (s.cpuPools cpu).pages = [] ∧ (s.allocFromBuddy 0 true).1 = none := by
  unfold Seg.allocFromPool
  split
  next hzero =>
    have hnil : (s.cpuPools cpu).pages = [] := eq_nil_of_length_eq_zero (h.pools cpu ▸ hzero)
    obtain ⟨m, hm⟩ := Nat.exists_eq_add_one.mpr hfill
    have hlen := poolFill_length h cpu true (m + 1)
    rw [hm, Seg.poolFill]
    rw [Seg.poolFill] at hlen
    cases halloc : s.allocFromBuddy 0 true with
    | mk r s1 =>
      rw [halloc] at hlen
      cases r with
      | none => exact iff_of_true rfl ⟨hnil, rfl⟩
      | some page =>
        refine iff_of_false (fun hnone => ?_) fun hnone => nomatch hnone.2
        dsimp only at hnone hlen
        rw [if_neg (Nat.succ_ne_zero _), poolPop_none] at hnone
        rw [hnone] at hlen
        exact absurd hlen (by simp)
  next hne =>
    have hcons : (s.cpuPools cpu).pages ≠ [] := fun hnil => hne (by rw [h.pools, hnil, length_nil])
    rw [poolPop_none]
    exact iff_of_false hcons fun hnone => hcons hnone.1

theorem Buddied.allocFromBuddy_none_iff (h : Buddied s) (horder : order < nrFreeLists) :
    (s.allocFromBuddy order true).1 = none ↔
      ∀ p, p % 2 ^ order = 0 → ∃ x, p ≤ x ∧ x < p + 2 ^ order ∧ ¬s.InFree x := by
  rw [Seg.allocFromBuddy]
  simp only [Bool.not_true, Bool.and_false, Bool.false_eq_true, if_false]
  cases hfirst : s.firstList (nrFreeLists - order) order with
  | none =>
    refine iff_of_true rfl fun p hp => ?_
    by_contra! hall
    obtain ⟨j, hle, hlt, q, hq, -⟩ := covered_in_listed h.aligned h.lonely horder hp fun x hx =>
      mem_freePages_iff.mpr (hall x (mem_block.mp hx).1 (mem_block.mp hx).2)
    have hsize := firstList_none hfirst j hle (by omega)
    rw [h.size, length_eq_zero_iff] at hsize
    rw [hsize] at hq
    cases hq
  | some i =>
    obtain ⟨hle, hlt, hne, -⟩ := firstList_spec hfirst
    have hblocks : (s.freeLists i).blocks ≠ [] := fun hnil => hne (by rw [h.size, hnil, length_nil])
    obtain ⟨page, rest, hcons⟩ := exists_cons_of_ne_nil hblocks
    have hpage : page ∈ (s.freeLists i).blocks := by rw [hcons]; exact mem_cons_self
    simp only [hcons, reduceCtorEq, false_iff]
    intro hall
    have haligned : page % 2 ^ order = 0 := Nat.mod_eq_zero_of_dvd
      ((Nat.pow_dvd_pow 2 hle).trans (Nat.dvd_of_mod_eq_zero (h.aligned i (by omega) page hpage)))
    obtain ⟨x, h1, h2, hx⟩ := hall page haligned
    have hpow : 2 ^ order ≤ 2 ^ i := Nat.pow_le_pow_right (by decide) hle
    exact hx ⟨i, by omega, page, hpage, h1, by omega⟩

theorem alloc_none {type : PageType} : (s.alloc cpu order type privileged).1 = none ↔
    (if order = 0 then s.allocFromPool cpu privileged else s.allocFromBuddy order privileged).1 = none := by
  unfold Seg.alloc
  split
  next heq => rw [heq]
  next heq => rw [heq]

/-- **An allocation fails only for want of memory.** In every state that is reached, a thread with
`vm_privilege` gets a block, unless each aligned block of its order has a page that is not
free; and a single page also if the pool of its processor has one. -/
theorem alloc_fails_iff {s : Sys n} (h : (lts n).Reach anyStep s) (cpu : Fin n) {order : Nat}
    (horder : order < nrFreeLists) (hfill : 0 < (s.seg.cpuPools cpu).transferSize) (type : PageType) :
    (s.seg.alloc cpu order type true).1 = none ↔
      (order = 0 → (s.seg.cpuPools cpu).pages = []) ∧
        ∀ p, p % 2 ^ order = 0 → ∃ x, p ≤ x ∧ x < p + 2 ^ order ∧ ¬s.seg.InFree x := by
  have hk := reach_kept h
  rw [← hk.buddied.allocFromBuddy_none_iff horder]
  rw [alloc_none]
  split
  next h0 =>
    subst h0
    rw [allocFromPool_none hk hfill]
    simp only [forall_const]
  next h0 => exact ⟨fun hnone => ⟨fun h => absurd h h0, hnone⟩, And.right⟩

/-- All nine pages are free, but no aligned block of eight is. -/
theorem alloc_fails_ninePages : ∃ s, (lts 1).run ninePages (ninePagesRun.take 9) = some s ∧
    s.seg.nrFreePages = 9 ∧ (s.seg.alloc 0 3 .kernel true).1 = none ∧
      ∀ p, p % 2 ^ 3 = 0 → ∃ x, p ≤ x ∧ x < p + 2 ^ 3 ∧ ¬s.seg.InFree x := by
  obtain ⟨s, hrun, hs⟩ := Option.map_eq_some_iff.mp (show
    ((lts 1).run ninePages (ninePagesRun.take 9)).map (fun s => ((s.seg.cpuPools 0).transferSize,
      s.seg.nrFreePages, (s.seg.alloc 0 3 .kernel true).1)) = some (1, 9, none) by decide)
  have hreach := Lts.Reach.run _ (.start ninePages_init) ((lts 1).okRun_any _ _) hrun
  simp only [Prod.mk.injEq] at hs
  obtain ⟨hsize, hcount, hnone⟩ := hs
  exact ⟨s, hrun, hcount, hnone, ((alloc_fails_iff hreach 0 (by decide) (by omega) .kernel).mp hnone).2⟩

end Mach.Vm.PageSeg
