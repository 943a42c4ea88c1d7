import Mach.Kern.RdxtreeInv

/-!
# A radix tree is a map from 64-bit keys

The specification of the operations of `kern/rdxtree.c` in terms of
`Rdxtree.lookup`: an insertion adds one pair or, if it fails, leaves the very same
tree; a removal takes one pair away. `rdxtree_insert_alloc` is the insertion of the
least key that the bitmaps say is open, or of the first key above the capacity of
the tree if they say that none is.
-/

namespace Mach.Kern.Radix

open Lib.Slots Function Option Node Rdxtree Nat

variable {α : Type}

/-- The root is not a node with a single child, in slot 0: `rdxtree_shrink` would
stop at it. -/
def Tight : (h : Nat) → Tree α h → Prop
  | 0, _ => True
  | _ + 1, n => ¬ (Node.nrEntries n = 1 ∧ (Node.entries n 0).isSome)

structure Rdxtree.WF (t : Rdxtree α) : Prop where
  ok : ∀ r, t.root = some r → Ok t.height r
  tight : ∀ r, t.root = some r → Tight t.height r
  empty : t.root = none → t.height = 0
  bound : t.height ≤ 11

theorem Rdxtree.WF.init : (Rdxtree.init : Rdxtree α).WF :=
  ⟨nofun, nofun, fun _ => rfl, zero_le _⟩

theorem Rdxtree.WF.some {h : Nat} {r : Tree α h} (hr : Ok h r) (ht : Tight h r) (hh : h ≤ 11) :
    (⟨h, some r⟩ : Rdxtree α).WF :=
  ⟨fun _ he => some.inj he ▸ hr, fun _ he => some.inj he ▸ ht, nofun, hh⟩

/-! ## Keys and heights -/

theorem pow_eq (h : Nat) : 64 ^ h = 2 ^ (6 * h) := by
  rw [Nat.pow_mul]

variable {h key H avail : Nat} {t u t' : Rdxtree α} {r : Tree α h} {v : α}

theorem maxKey_lt_iff (hk : key < 2 ^ 64) : maxKey h < key ↔ 64 ^ h ≤ key := by
  unfold maxKey
  rw [pow_eq]
  have hp := Nat.two_pow_pos (6 * h)
  split
  · omega
  next hh =>
    have : 2 ^ 64 ≤ 2 ^ (6 * h) := Nat.pow_le_pow_right (by decide) (by omega)
    omega

theorem lookup_eq (hk : key < 2 ^ 64) :
    t.lookup key = if key < 64 ^ t.height then lookupAt key t.height t.root else none := by
  unfold Rdxtree.lookup
  have := maxKey_lt_iff (h := t.height) hk
  split <;> split <;> first | rfl | omega

theorem lookup_at (hk : key < 2 ^ 64) (c : Option (Tree α h)) : (⟨h, c⟩ : Rdxtree α).lookup key =
    if key < 64 ^ h then lookupAt key h c else none := lookup_eq hk

theorem pow_mono {h' : Nat} (hle : h ≤ h') : 64 ^ h ≤ 64 ^ h' :=
  Nat.pow_le_pow_right (by decide) hle

theorem lt_eleven (hk : key < 2 ^ 64) (hle : 64 ^ h ≤ key) : h + 1 ≤ 11 := by
  by_contra hge
  have := le_trans (pow_mono (show 11 ≤ h by omega)) hle
  omega

theorem newHeight_spec (hk : key < 2 ^ 64) : ∀ {fuel h : Nat}, h ≤ 11 →
    11 ≤ fuel + h → 0 < h → 64 ^ (h - 1) ≤ key →
    h ≤ newHeight key fuel h ∧ newHeight key fuel h ≤ 11 ∧ key < 64 ^ newHeight key fuel h ∧
      64 ^ (newHeight key fuel h - 1) ≤ key
  | 0, h, hle, hfuel, _, hlow => by
    obtain rfl : h = 11 := by omega
    have hcap : key < 64 ^ 11 := lt_of_lt_of_le hk (by decide)
    exact ⟨le_rfl, le_rfl, hcap, hlow⟩
  | fuel + 1, h, hle, hfuel, hpos, hlow => by
    have hiff := maxKey_lt_iff (h := h) hk
    rw [newHeight]
    split
    next hmore =>
      have hcap : 64 ^ h ≤ key := hiff.mp hmore
      obtain ⟨h1, h2, h3, h4⟩ := newHeight_spec hk (lt_eleven hk hcap)
        (show 11 ≤ fuel + (h + 1) by omega) (by omega) hcap
      exact ⟨by omega, h2, h3, h4⟩
    next hdone => exact ⟨le_rfl, hle, by omega, hlow⟩

theorem index_ne_zero (hlow : 64 ^ h ≤ key) (hhigh : key < 64 ^ (h + 1)) : index key h ≠ 0 := by
  have hp : 0 < 64 ^ h := Nat.pow_pos (by decide)
  have h1 : 1 ≤ key / 64 ^ h := (Nat.one_le_div_iff hp).mpr hlow
  have h2 : key / 64 ^ h < 64 := by
    rw [Nat.div_lt_iff_lt_mul hp, Nat.mul_comm]
    exact hhigh
  intro h0
  have : digit 64 key h = 0 := congrArg Fin.val h0
  rw [digit] at this
  omega

theorem height_le (hlow : 64 ^ (h - 1) ≤ key) (hhigh : key < 64 ^ H) : h ≤ H := by
  have hlt : (64 : Nat) ^ (h - 1) < 64 ^ H := by omega
  have := (Nat.pow_lt_pow_iff_right (by decide)).mp hlt
  omega

theorem index_eq_zero (hlt : key < 64 ^ h) : index key h = 0 := by
  apply Fin.ext
  show digit 64 key h = 0
  rw [digit, div_eq_of_lt hlt]

/-! ## Growing and shrinking -/

theorem shrink_tight (ht : Tight h r) : shrink h r = ⟨h, some r⟩ := by
  cases h with
  | zero => rfl
  | succ h =>
    rw [shrink]
    split
    · rfl
    next h1 =>
      split
      · rfl
      next c hc => exact absurd ⟨not_not.mp h1, by rw [hc]; rfl⟩ ht

@[simp] theorem above_entries (h : Nat) (r : Tree α h) :
    Node.entries (above h r) = update (fun _ => none) 0 (some r) := by
  unfold above
  split <;> rfl

@[simp] theorem above_nrEntries (h : Nat) (r : Tree α h) : Node.nrEntries (above h r) = 1 := by
  unfold above
  split <;> rfl

theorem shrink_above (h : Nat) (r : Tree α h) : shrink (h + 1) (above h r) = shrink h r := by
  rw [shrink]
  simp

theorem above_ok (hr : Ok h r) : Ok (h + 1) (above h r) := by
  -- the bit of slot 0 is clear exactly when nothing can be allocated below
  have hbit : ∀ i, bmIsSet (above h r) i = (!(noRoom h r) || decide (i ≠ 0)) := by
    intro i
    unfold above
    cases hroom : noRoom h r <;> simp
  have hmarked : noRoom h r → Marked h r := by
    intro hroom
    cases h with
    | zero => trivial
    | succ h => exact ⟨0, bmEmpty_iff.mp hroom 0⟩
  have hslot : ∀ i c, entries (above h r) i = some c → i = 0 ∧ r = c := by
    intro i c hc
    by_cases hi : i = 0
    · exact ⟨hi, by simpa [hi] using hc⟩
    · simp [update_of_ne hi] at hc
  refine ⟨⟨?_, fun i c hc => ?_, fun i hi => ?_, fun i c hc hi => ?_⟩, by simp [Node.empty]⟩
  · unfold Node.Counted
    rw [above_nrEntries, above_entries, used_store_free rfl, used_eq_zero.mpr fun _ => rfl]
  · obtain ⟨-, rfl⟩ := hslot i c hc
    exact hr
  · rw [hbit] at hi
    obtain ⟨hroom, rfl⟩ : noRoom h r ∧ i = 0 := by simpa using hi
    exact ⟨r, by simp, hmarked hroom⟩
  · obtain ⟨rfl, rfl⟩ := hslot i c hc
    have hroom : noRoom h r = false := by simpa [hbit] using hi
    by_contra hr'
    rw [(noRoom_iff h r).mpr hr'] at hroom
    cases hroom

theorem lookupAt_above {k : Nat} (hk : k < 64 ^ (h + 1)) : lookupAt k (h + 1) (some (above h r)) =
      if k < 64 ^ h then lookupAt k h (some r) else none := by
  show lookupAt k h (entries (above h r) (index k h)) = _
  rw [above_entries]
  split
  next hlt => rw [index_eq_zero hlt, update_self]
  next hge =>
    rw [update_of_ne (index_ne_zero (by omega) hk)]
    cases h <;> rfl

def Single : (h : Nat) → Tree α h → Prop
  | 0, _ => False
  | _ + 1, n => ∀ i, i ≠ 0 → Node.entries n i = none

structure Grown (h : Nat) (root : Tree α h) (n H : Nat) (r : Tree α H) : Prop where
  height : H = h + n
  ok : Ok H r
  lookup : ∀ k < 64 ^ H, lookupAt k H (some r) = if k < 64 ^ h then lookupAt k h (some root) else none
  back : shrink H r = shrink h root
  single : 0 < n → Single H r

theorem growLoop_ok : ∀ {n h avail avail' : Nat} {root : Tree α h} {t : Rdxtree α}, Ok h root →
    growLoop n h root avail = (true, avail', t) →
    ∃ H r, t = ⟨H, some r⟩ ∧ Grown h root n H r
  | 0, h, _, _, root, t, hr, hg => by
    cases hg
    exact ⟨h, root, rfl, rfl, hr, fun k hk => by rw [if_pos hk], rfl, fun h => absurd h (by omega)⟩
  | n + 1, h, 0, _, root, t, _, hg => by cases hg
  | n + 1, h, avail + 1, avail', root, t, hr, hg => by
    obtain ⟨H, r, rfl, hG⟩ := growLoop_ok (above_ok hr) hg
    have hpow : 64 ^ h ≤ 64 ^ (h + 1) := pow_mono (by omega)
    refine ⟨H, r, rfl, by have := hG.height; omega, hG.ok, fun k hk => ?_,
      hG.back.trans (shrink_above h root), fun _ => ?_⟩
    · rw [hG.lookup k hk]
      split
      next hlt => exact lookupAt_above hlt
      next hge => rw [if_neg (by omega)]
    · cases n with
      | zero =>
        -- this was the last level
        injection hg with _ h2
        injection h2 with _ h3
        injection h3 with hH hroot
        subst hH
        obtain rfl : above h root = r := some.inj (eq_of_heq hroot)
        intro i hi
        rw [above_entries, update_of_ne hi]
      | succ n => exact hG.single (by omega)

theorem growLoop_fail : ∀ {n h avail avail' : Nat} {root : Tree α h} {t : Rdxtree α},
    growLoop n h root avail = (false, avail', t) → t = shrink h root
  | 0, _, _, _, _, _, hg => by cases hg
  | n + 1, _, 0, _, _, _, hg => by cases hg; rfl
  | n + 1, h, avail + 1, avail', root, t, hg => by
    have hrest : growLoop n (h + 1) (above h root) avail = (false, avail', t) := hg
    rw [growLoop_fail hrest, shrink_above]

/-! ## Insertion -/

theorem tight_insert {c : Option (Tree α (h + 1))} {n' : Tree α (h + 1)} {clear : Bool}
    (hins : insertAt v key (h + 1) c avail = .ok n' clear) (hnone : c = none → index key h ≠ 0)
    (hsome : ∀ n, c = some n → ¬ Node.empty n ∧
      (Node.entries n (index key h) = none ∨ Tight (h + 1) n)) : Tight (h + 1) n' := by
  rw [insertAt] at hins
  split at hins
  · cases hins
  rename_i n avail' he
  obtain ⟨child, cl, -, hn', -⟩ := afterInsert_eq_ok hins
  have hnr : nrEntries n' = (n.insert (index key h) child).nrEntries := by
    rw [hn']
    split <;> rfl
  have hentries : entries n' = update n.entries (index key h) (some child) := by
    rw [hn']
    split <;> rfl
  rintro ⟨h1, h0⟩
  rw [hnr, Node.insert] at h1
  rw [hentries] at h0
  rcases enter_eq_some he with ⟨rfl, -⟩ | ⟨rfl, rfl, -⟩
  · obtain ⟨hne, hfree | htight⟩ := hsome n rfl
    · -- a second entry
      simp [hfree] at h1
      simp [Node.empty, h1] at hne
    · apply htight
      cases hi : n.entries (index key h) with
      | none =>
        simp [hi] at h1
        simp [Node.empty, h1] at hne
      | some d =>
        simp only [hi, isNone_some, Bool.false_eq_true, if_false] at h1
        refine ⟨h1, ?_⟩
        by_cases hz : (0 : Fin 64) = index key h
        · rw [hz, hi]
          rfl
        · rwa [update_of_ne hz] at h0
  · -- a new root, used in another slot
    rw [update_of_ne (hnone rfl).symm] at h0
    cases h0

theorem insert_small (hk : key < 2 ^ 64) (hlt : key < 64 ^ t.height) :
    t.insert key v avail = t.finish (insertAt v key t.height t.root avail) := by
  unfold Rdxtree.insert
  rw [if_neg (by rw [maxKey_lt_iff hk]; omega)]

structure Ready (t : Rdxtree α) (key : Nat) (u : Rdxtree α) : Prop where
  ok : ∀ r, u.root = some r → Ok u.height r
  bound : u.height ≤ 11
  room : key < 64 ^ u.height
  lookup : ∀ k < 2 ^ 64, u.lookup k = t.lookup k
  height : ∀ H, t.height ≤ H → key < 64 ^ H → u.height ≤ H
  tight : ∀ {v : α} {avail : Nat} {r : Tree α u.height} {clear : Bool},
    insertAt v key u.height u.root avail = .ok r clear → Tight u.height r
  back : ∀ {v : α} {avail : Nat} {c : Option (Tree α u.height)} {here : Bool},
    insertAt v key u.height u.root avail = .nomem c here →
    (u.finish (.nomem c here)).2 = t

theorem finish_nomem {r : Tree α u.height} {here : Bool} : (u.finish (.nomem (some r) here)).2 =
      if here then shrink u.height r else ⟨u.height, some r⟩ := rfl

theorem Ready.same (hw : t.WF) (hlt : key < 64 ^ t.height) : Ready t key t := by
  refine ⟨hw.ok, hw.bound, hlt, fun _ _ => rfl, fun _ h _ => h, fun hins => ?_, fun {v avail c here} hins => ?_⟩
  · obtain ⟨h, root⟩ := t
    cases h with
    | zero => trivial
    | succ h =>
      refine tight_insert hins (fun hnone => absurd (hw.empty hnone) (by simp)) fun n hn => ?_
      exact ⟨(hw.ok n hn).2, .inr (hw.tight n hn)⟩
  · obtain rfl := insertAt_nomem hw.ok hins
    obtain ⟨h, root⟩ := t
    cases root with
    | none =>
      obtain rfl : h = 0 := hw.empty rfl
      rfl
    | some r =>
      rw [finish_nomem]
      split
      · exact shrink_tight (hw.tight r rfl)
      · rfl

theorem Ready.fresh (hlt : key < 64 ^ (H + 1)) (hle : 64 ^ H ≤ key) (hbound : H + 1 ≤ 11) :
    Ready (⟨0, none⟩ : Rdxtree α) key ⟨H + 1, none⟩ := by
  refine ⟨nofun, hbound, hlt, fun k hk => ?_, fun H' _ hH' => height_le hle hH', fun hins => ?_,
    fun hins => ?_⟩
  · rw [lookup_at hk, lookup_at hk, lookupAt_none, lookupAt_none, ite_self, ite_self]
  · exact tight_insert hins (fun _ => index_ne_zero hle hlt) nofun
  · obtain rfl := insertAt_nomem (fun c0 hc0 => by cases hc0) hins
    rfl

theorem Ready.grown {n : Nat} {root : Tree α h} {r : Tree α H}
    (hw : (⟨h, some root⟩ : Rdxtree α).WF) (hG : Grown h root n H r) (hn : 0 < n) (hH : H ≤ 11)
    (hlt : key < 64 ^ H) (hle : 64 ^ (H - 1) ≤ key) : Ready ⟨h, some root⟩ key ⟨H, some r⟩ := by
  have hpow : 64 ^ h ≤ 64 ^ H := pow_mono (by have := hG.height; omega)
  refine ⟨fun r' hr' => ?_, hH, hlt, fun k hk => ?_, fun H' _ hH' => height_le hle hH',
    fun hins => ?_, fun hins => ?_⟩
  · obtain rfl := some.inj hr'
    exact hG.ok
  · rw [lookup_at hk, lookup_at hk]
    split
    next h => exact hG.lookup k h
    next h => rw [if_neg (by omega)]
  · cases H with
    | zero => trivial
    | succ H =>
      have hidx := index_ne_zero hle hlt
      refine tight_insert hins nofun fun n hn => ?_
      obtain rfl := some.inj hn
      exact ⟨hG.ok.2, .inl (hG.single ‹_› _ hidx)⟩
  · obtain rfl := insertAt_nomem (fun r' hr' => some.inj hr' ▸ hG.ok) hins
    cases H with
    | zero => exact absurd hG.height (by omega)
    | succ H =>
      have hidx := index_ne_zero hle hlt
      obtain rfl := insertAt_nomem_here (hG.single hn _ hidx) hins
      rw [finish_nomem, if_pos rfl, hG.back, shrink_tight (hw.tight root rfl)]

theorem Ready.finish {e : Err} (hu : Ready t key u)
    (h : u.finish (insertAt v key u.height u.root avail) = (e, t')) :
    (e = .success → t'.WF ∧ t'.height = u.height ∧ lookupAt key u.height u.root = none ∧
      ∀ k < 2 ^ 64, t'.lookup k = if k = key then some v else t.lookup k) ∧
    (e = .busy → t' = u ∧ lookupAt key u.height u.root ≠ none) ∧
    (e = .nomem → t' = t) := by
  cases ho : insertAt v key u.height u.root avail with
  | ok r clear =>
    rw [ho] at h
    cases h
    obtain ⟨hfree, hnew⟩ := insertAt_lookup ho
    have hinv := insertAt_inserted hu.ok ho
    refine ⟨fun _ => ⟨.some hinv.ok (hu.tight ho) hu.bound, rfl, hfree, fun k hk => ?_⟩, nofun,
      nofun⟩
    rw [← hu.lookup k hk, lookup_at hk, lookup_eq hk]
    by_cases hlt : k < 64 ^ u.height
    · rw [if_pos hlt, if_pos hlt, hnew k, mod_eq_of_lt hlt, mod_eq_of_lt hu.room]
    · have : k ≠ key := fun he => hlt (he ▸ hu.room)
      rw [if_neg hlt, if_neg hlt, if_neg this]
  | busy =>
    rw [ho] at h
    cases h
    exact ⟨nofun, fun _ => ⟨rfl, insertAt_busy ho⟩, nofun⟩
  | noRoom k => exact absurd ho insertAt_ne_noRoom
  | nomem c here =>
    have hback := hu.back ho
    rw [ho] at h
    cases c <;> cases h <;> exact ⟨nofun, nofun, fun _ => hback⟩

section

variable (hw : t.WF) (hk : key < 2 ^ 64)
include hw hk

theorem grow_cases {avail' : Nat} {done : Bool}
    (hle : 64 ^ t.height ≤ key) (hg : t.grow key avail = (done, avail', u)) :
    if done then Ready t key u else u = t := by
  obtain ⟨h1, h2, h3, h4⟩ := newHeight_spec hk (lt_eleven hk hle)
    (show 11 ≤ 11 + (t.height + 1) by omega) (by omega) hle
  obtain ⟨h, root⟩ := t
  unfold grow at hg
  simp only at hg h1 h2 h3 h4
  generalize newHeight key 11 (h + 1) = H at hg h1 h2 h3 h4
  cases root with
  | none =>
    obtain rfl : h = 0 := hw.empty rfl
    cases hg
    obtain ⟨H, rfl⟩ : ∃ k, H = k + 1 := ⟨H - 1, by omega⟩
    exact Ready.fresh h3 h4 h2
  | some root =>
    cases done with
    | false =>
      show _ = _
      rw [growLoop_fail hg, shrink_tight (hw.tight root rfl)]
    | true =>
      obtain ⟨H', r, rfl, hG⟩ := growLoop_ok (hw.ok root rfl) hg
      obtain rfl : H' = H := by
        have hheight' : H' = h + (H - h) := hG.height
        omega
      exact Ready.grown hw hG (by omega) h2 h3 h4

theorem insert_cases (v : α) (avail : Nat) :
    t.insert key v avail = (.nomem, t) ∨ ∃ u avail', Ready t key u ∧
        t.insert key v avail = u.finish (insertAt v key u.height u.root avail') := by
  by_cases hlt : key < 64 ^ t.height
  · exact .inr ⟨t, avail, .same hw hlt, insert_small hk hlt⟩
  · have hmore : maxKey t.height < key := (maxKey_lt_iff hk).mpr (by omega)
    unfold Rdxtree.insert
    rw [if_pos hmore]
    obtain ⟨⟨done, avail', u⟩, hg⟩ : ∃ r, t.grow key avail = r := ⟨_, rfl⟩
    rw [hg]
    have hu := grow_cases hw hk (by omega) hg
    cases done with
    | false => exact .inl (by rw [show u = t from hu])
    | true => exact .inr ⟨u, avail', hu, rfl⟩

theorem insert_success (h : t.insert key v avail = (.success, t')) : t'.WF ∧ t.lookup key = none ∧
      (∀ k < 2 ^ 64, t'.lookup k = if k = key then some v else t.lookup k) ∧
      ∀ H, t.height ≤ H → key < 64 ^ H → t'.height ≤ H := by
  rcases insert_cases hw hk v avail with hn | ⟨u, avail', hu, hins⟩
  · rw [hn] at h
    cases h
  · rw [hins] at h
    obtain ⟨hwf, hheight, hfree, hl⟩ := (hu.finish h).1 rfl
    refine ⟨hwf, ?_, hl, hheight ▸ hu.height⟩
    rw [← hu.lookup key hk, lookup_eq hk, if_pos hu.room, hfree]

theorem insert_fail {e : Err} (h : t.insert key v avail = (e, t')) (he : e ≠ .success) :
    t' = t ∧ (e = .busy → t.lookup key ≠ none) := by
  rcases insert_cases hw hk v avail with hn | ⟨u, avail', hu, hins⟩
  · rw [hn] at h
    cases h
    exact ⟨rfl, nofun⟩
  · cases e with
    | success => exact absurd rfl he
    | nomem => exact ⟨(hu.finish (hins ▸ h)).2.2 rfl, nofun⟩
    | busy =>
      have huse : t.lookup key ≠ none := by
        rw [← hu.lookup key hk, lookup_eq hk, if_pos hu.room]
        exact ((hu.finish (hins ▸ h)).2.1 rfl).2
      have hlt : key < 64 ^ t.height := by
        by_contra hge
        exact huse (by rw [lookup_eq hk, if_neg hge])
      exact ⟨(((Ready.same hw hlt).finish (insert_small hk hlt ▸ h)).2.1 rfl).1, fun _ => huse⟩

end

/-! ## Allocation -/

def Rdxtree.Open (t : Rdxtree α) (key : Nat) : Prop :=
  key < 64 ^ t.height ∧ isOpen key t.height t.root

instance (t : Rdxtree α) (key : Nat) : Decidable (t.Open key) := inferInstanceAs (Decidable (_ ∧ _))

/-- The key `rdxtree_insert_alloc` goes for: the least open one, or the first above
the capacity of the tree. -/
def Rdxtree.Next (t : Rdxtree α) (key : Nat) : Prop :=
  (t.Open key ∧ ∀ k < key, ¬ t.Open k) ∨ ((∀ k, ¬ t.Open k) ∧ key = 64 ^ t.height)

theorem insertAlloc_cases (hw : t.WF) (v : α) (avail : Nat) :
    (∃ pos, (t.Open pos ∧ ∀ k < pos, ¬ t.Open k) ∧ t.insertAlloc v avail =
      ((t.finish (insertAt v pos t.height t.root avail)).1,
        (t.finish (insertAt v pos t.height t.root avail)).2, pos % 2 ^ 64)) ∨
    ((∀ k, ¬ t.Open k) ∧ ∃ key, key = (maxKey t.height + 1) % 2 ^ 64 ∧ t.insertAlloc v avail =
      ((t.insert key v avail).1, (t.insert key v avail).2, key)) := by
  by_cases hroom : ∀ c0, t.root = some c0 → Roomy t.height c0
  · obtain ⟨pos, heq, hlt, hopen, hleast⟩ :=
      allocAt_eq v avail fun c0 hc0 => ⟨hw.ok c0 hc0, hroom c0 hc0⟩
    refine .inl ⟨pos, ⟨⟨hlt, hopen⟩, fun k hk hko => ?_⟩, ?_⟩
    · rw [Rdxtree.Open, hleast k hk] at hko
      cases hko.2
    rw [insertAlloc, heq]
    cases ho : insertAt v pos t.height t.root avail with
    | noRoom k => exact absurd ho insertAt_ne_noRoom
    | _ => rfl
  · push Not at hroom
    obtain ⟨r, hr, hno⟩ := hroom
    obtain ⟨heq, hnone⟩ := allocAt_noRoom v avail hno
    refine .inr ⟨fun k hk => ?_, _, rfl, ?_⟩
    · rw [Rdxtree.Open, hr, hnone] at hk
      cases hk.2
    · rw [insertAlloc, hr, heq]

theorem insertAlloc_eq (hw : t.WF) (hh : t.height ≤ 10) (v : α) (avail : Nat) :
    ∃ key, key < 2 ^ 64 ∧ t.Next key ∧ t.insertAlloc v avail =
      ((t.insert key v avail).1, (t.insert key v avail).2, key) := by
  have hcap : 64 ^ t.height ≤ 64 ^ 10 := pow_mono hh
  have hcap' : (64 : Nat) ^ 10 < 2 ^ 64 := by decide
  rcases insertAlloc_cases hw v avail with ⟨pos, hpos, heq⟩ | ⟨hnone, key, hkey, heq⟩
  · have hlt : pos < 64 ^ t.height := hpos.1.1
    have hk : pos < 2 ^ 64 := by omega
    refine ⟨pos, hk, .inl hpos, ?_⟩
    rw [heq, insert_small hk hlt, Nat.mod_eq_of_lt hk]
  · have hp : 0 < 64 ^ t.height := Nat.pow_pos (by decide)
    rw [maxKey, if_pos (by omega), ← pow_eq, Nat.sub_add_cancel hp, Nat.mod_eq_of_lt (by omega)] at hkey
    exact ⟨key, by omega, .inr ⟨hnone, hkey⟩, heq⟩

theorem lookup_of_open (hk : key < 2 ^ 64) (h : t.Open key) : t.lookup key = none := by
  rw [lookup_eq hk, if_pos h.1, lookupAt_of_isOpen h.2]

/-! ## Removal -/

theorem shrink_spec : ∀ {h : Nat} {r : Tree α h}, Ok h r →
    ∃ H r', shrink h r = ⟨H, some r'⟩ ∧ H ≤ h ∧ Ok H r' ∧ Tight H r' ∧
      ∀ k < 64 ^ h, lookupAt k h (some r) = if k < 64 ^ H then lookupAt k H (some r') else none
  | 0, r, _ => ⟨0, r, rfl, le_rfl, trivial, trivial, fun k hk => by rw [if_pos hk]⟩
  | h + 1, n, hn => by
    by_cases ht : Tight (h + 1) n
    · exact ⟨h + 1, n, shrink_tight ht, le_rfl, hn, ht, fun k hk => by rw [if_pos hk]⟩
    · obtain ⟨h1, h0⟩ := not_not.mp ht
      obtain ⟨r, hr⟩ := isSome_iff_exists.mp h0
      obtain ⟨H, r', hs, hH, hok, htight, hl⟩ := shrink_spec (hn.1.child 0 r hr)
      have hpow : 64 ^ H ≤ 64 ^ h := pow_mono hH
      refine ⟨H, r', ?_, by omega, hok, htight, fun k hk => ?_⟩
      · rw [shrink, if_neg (by simpa using h1), hr]
        exact hs
      show lookupAt k h (Node.entries n (index k h)) = _
      by_cases hlt : k < 64 ^ h
      · rw [index_eq_zero hlt, hr, hl k hlt]
      · -- slot 0 is the only one in use
        have hused : used (Node.entries n) = 1 := by rw [← hn.1.counted, h1]
        rw [used_eq_one hused hr (index_ne_zero (by omega) hk), if_neg (by omega)]
        cases h <;> rfl

theorem shrink_wf (hr : Ok h r) (hh : h ≤ 11) :
    (shrink h r).WF ∧ (shrink h r).height ≤ h ∧ ∀ k < 2 ^ 64, (shrink h r).lookup k =
      (⟨h, some r⟩ : Rdxtree α).lookup k := by
  obtain ⟨H, r', hs, hH, hok, htight, hl⟩ := shrink_spec hr
  have hpow : 64 ^ H ≤ 64 ^ h := pow_mono hH
  rw [hs]
  refine ⟨.some hok htight (hH.trans hh), hH, fun k hk => ?_⟩
  rw [lookup_at hk, lookup_at hk]
  by_cases hlt : k < 64 ^ h
  · rw [if_pos hlt, hl k hlt]
  · rw [if_neg hlt, if_neg (by omega)]

theorem tight_remove {n : Node (Tree α h)} {i : Fin 64} {lowest : Bool} {r : Removal α (Tree α h)}
    {n' : Node (Tree α h)} (hi : (n.entries i).isSome) (ht : Tight (h + 1) n)
    (hleft : (n.afterRemove i lowest r).left = some n')
    (hhere : (n.afterRemove i lowest r).here = false) : Tight (h + 1) n' := by
  unfold afterRemove at hleft hhere
  split at hleft
  next child hchild =>
    obtain rfl := some.inj hleft
    rintro ⟨h1, h0⟩
    refine ht ⟨?_, ?_⟩
    · obtain ⟨d, hd⟩ := isSome_iff_exists.mp hi
      simp only [Node.insert, raise_entries, hd, isNone_some, Bool.false_eq_true, if_false] at h1
      rw [← h1]
      unfold raise
      split <;> rfl
    · by_cases hz : (0 : Fin 64) = i
      · rwa [hz]
      · simpa [update_of_ne hz] using h0
  next hnone =>
    rw [hnone] at hhere
    cases hhere

theorem lookup_none (h : Nat) {k : Nat} (hk : k < 2 ^ 64) :
    (⟨h, none⟩ : Rdxtree α).lookup k = none := by
  rw [lookup_at hk, lookupAt_none, ite_self]

def settle (h : Nat) (r : Removal α (Tree α h)) : Rdxtree α :=
  match r.left with
  | none => ⟨0, none⟩
  | some root => if r.here then shrink h root else ⟨h, some root⟩

theorem remove_eq {r : Removal α (Tree α t.height)} (hmax : ¬ maxKey t.height < key)
    (h : removeAt key t.height t.root = some r) :
    t.remove key = (some r.value, settle t.height r) := by
  obtain ⟨v, left, up, here⟩ := r
  rw [Rdxtree.remove, if_neg hmax, h]
  cases left <;> rfl

theorem settle_spec {t : Tree α h} {r : Removal α (Tree α h)} (hr : Removed h t r) (hh : h ≤ 11)
    (htight : r.here = false → ∀ t', r.left = some t' → Tight h t') :
    (settle h r).WF ∧ (settle h r).height ≤ h ∧
      ∀ k < 2 ^ 64, (settle h r).lookup k = (⟨h, r.left⟩ : Rdxtree α).lookup k := by
  unfold settle
  split
  next hleft =>
    refine ⟨.init, zero_le _, fun k hk => ?_⟩
    rw [hleft, lookup_none 0 hk, lookup_none h hk]
  next root hleft =>
    rw [hleft]
    split
    next => exact shrink_wf (hr.ok root hleft) hh
    next hhere =>
      have ht := htight (Bool.eq_false_of_not_eq_true hhere) root hleft
      exact ⟨.some (hr.ok root hleft) ht hh, le_rfl, fun _ _ => rfl⟩

theorem remove_some (hw : t.WF) (hk : key < 2 ^ 64) (h : t.remove key = (some v, t')) :
    t'.WF ∧ t.lookup key = some v ∧
      (∀ k < 2 ^ 64, t'.lookup k = if k = key then none else t.lookup k) ∧
      t'.height ≤ t.height := by
  obtain ⟨H, root⟩ := t
  have hiff := maxKey_lt_iff (h := H) hk
  by_cases hmax : maxKey H < key
  · rw [Rdxtree.remove, if_pos hmax] at h
    cases h
  · have hlt : key < 64 ^ H := by omega
    cases hrem : removeAt key H root with
    | none =>
      rw [Rdxtree.remove, if_neg hmax, hrem] at h
      cases h
    | some rem =>
      rw [remove_eq hmax hrem] at h
      cases h
      obtain ⟨r, rfl⟩ := removeAt_some hrem
      have hr := hw.ok r rfl
      obtain ⟨hvalue, hrest⟩ := removeAt_lookup hr hrem
      have htight : rem.here = false → ∀ t', rem.left = some t' → Tight H t' := by
        intro hhere t' hleft
        cases H with
        | zero => trivial
        | succ H =>
          obtain ⟨r0, hr0, rfl⟩ := removeAt_succ hrem
          obtain ⟨c, hc⟩ := removeAt_some hr0
          exact tight_remove (by rw [hc]; rfl) (hw.tight r rfl) hleft hhere
      obtain ⟨hwf, hheight, hl⟩ := settle_spec (removeAt_removed hr hrem) hw.bound htight
      refine ⟨hwf, ?_, fun k hk' => ?_, hheight⟩
      · rw [lookup_at hk, if_pos hlt, hvalue]
      rw [hl k hk', lookup_at hk', lookup_at hk']
      by_cases hk'' : k < 64 ^ H
      · rw [if_pos hk'', if_pos hk'', hrest k, mod_eq_of_lt hk'', mod_eq_of_lt hlt]
      · rw [if_neg hk'', if_neg hk'', ite_self]

theorem remove_none (hk : key < 2 ^ 64) (h : t.remove key = (none, t')) :
    t' = t ∧ t.lookup key = none := by
  have hiff := maxKey_lt_iff (h := t.height) hk
  unfold Rdxtree.remove at h
  split at h
  next hmax =>
    cases h
    exact ⟨rfl, by rw [lookup_eq hk, if_neg (by omega)]⟩
  next hmax =>
    split at h
    next hrem =>
      cases h
      refine ⟨rfl, ?_⟩
      rw [lookup_eq hk, if_pos (by omega), removeAt_eq_none hrem]
    next => cases h
    next => cases h

/-! ## Whole runs -/

/-- `rdxtree_insert`, with the number of node creations that succeed, and `rdxtree_remove`. -/
inductive Call (α : Type)
  | insert (key : BitVec 64) (v : α) (avail : Nat)
  | remove (key : BitVec 64)

def call (s : Rdxtree α × (BitVec 64 → Option α)) : Call α → Rdxtree α × (BitVec 64 → Option α)
  | .insert key v avail =>
    let r := s.1.insert key.toNat v avail
    (r.2, if r.1 = .success then update s.2 key (some v) else s.2)
  | .remove key => ((s.1.remove key.toNat).2, update s.2 key none)

def IsMap (s : Rdxtree α × (BitVec 64 → Option α)) : Prop :=
  s.1.WF ∧ ∀ k, s.1.lookup k.toNat = s.2 k

theorem IsMap.call {s : Rdxtree α × (BitVec 64 → Option α)} (h : IsMap s) (c : Call α) :
    IsMap (call s c) := by
  obtain ⟨hw, hl⟩ := h
  cases c with
  | insert key v avail =>
    obtain ⟨⟨e, t⟩, hins⟩ : ∃ r, s.1.insert key.toNat v avail = r := ⟨_, rfl⟩
    simp only [Radix.call, hins]
    cases e with
    | success =>
      obtain ⟨hwf, -, hlookup, -⟩ := insert_success hw key.isLt hins
      refine ⟨hwf, fun k => ?_⟩
      rw [hlookup _ k.isLt, hl k, if_pos rfl]
      simp only [update_apply, BitVec.toNat_inj]
    | busy | nomem =>
      obtain ⟨rfl, -⟩ := insert_fail hw key.isLt hins (by decide)
      exact ⟨hw, hl⟩
  | remove key =>
    obtain ⟨⟨r, t⟩, hrem⟩ : ∃ r, s.1.remove key.toNat = r := ⟨_, rfl⟩
    simp only [Radix.call, hrem]
    cases r with
    | some v =>
      obtain ⟨hwf, -, hlookup, -⟩ := remove_some hw key.isLt hrem
      refine ⟨hwf, fun k => ?_⟩
      rw [hlookup _ k.isLt, hl k]
      simp only [update_apply, BitVec.toNat_inj]
    | none =>
      obtain ⟨rfl, hnone⟩ := remove_none key.isLt hrem
      refine ⟨hw, fun k => ?_⟩
      simp only [update_apply]
      split
      next heq => rw [heq, hnone]
      next => exact hl k

/-- **A radix tree is a map**, after any calls and with memory running out at any node: it has
what was inserted and not removed since, a removal returns it, and an insertion that finds
memory fails exactly if the key is in use. -/
theorem calls_make_map (calls : List (Call α)) :
    let s := calls.foldl call (.init, fun _ => none)
    (∀ k, s.1.lookup k.toNat = s.2 k) ∧ (∀ k, (s.1.remove k.toNat).1 = s.2 k) ∧
      ∀ k v avail, (s.1.insert k.toNat v avail).1 ≠ .nomem →
        ((s.1.insert k.toNat v avail).1 = .busy ↔ s.2 k ≠ none) := by
  intro s
  have hs : IsMap s :=
    List.foldlRecOn calls call ⟨.init, fun k => lookup_none 0 k.isLt⟩ fun _ h c _ => h.call c
  obtain ⟨hw, hl⟩ := hs
  refine ⟨hl, fun k => ?_, fun k v avail hmem => ?_⟩
  · rw [← hl k]
    obtain ⟨⟨r, t⟩, hrem⟩ : ∃ r, s.1.remove k.toNat = r := ⟨_, rfl⟩
    rw [hrem]
    cases r with
    | some v => exact (remove_some hw k.isLt hrem).2.1.symm
    | none => exact (remove_none k.isLt hrem).2.symm
  · obtain ⟨⟨e, t⟩, hins⟩ : ∃ r, s.1.insert k.toNat v avail = r := ⟨_, rfl⟩
    rw [hins] at hmem ⊢
    rw [← hl k]
    cases e with
    | success =>
      obtain ⟨-, hnone, -⟩ := insert_success hw k.isLt hins
      exact ⟨(fun hbusy => by cases hbusy), fun h => absurd hnone h⟩
    | busy => exact ⟨fun _ => (insert_fail hw k.isLt hins (by decide)).2 rfl, fun _ => rfl⟩
    | nomem => exact absurd rfl hmem

end Mach.Kern.Radix
