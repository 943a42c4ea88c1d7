import Mach.I386at.BiosmemMap
import Mathlib.Data.List.Pairwise

/-!
# The memory map is resolved

Two entries that overlap are cut into pieces that have the same addresses with the same
highest types, and no address in common. The loops put this together for the whole map, as
long as the end of an entry that is kept while the entry is compared is its end
(`compareClean`): the entry may have been cut or have grown since.
-/

namespace Mach.I386at.Biosmem

open List Entry Nat

/-! ## Entries and addresses -/

def Entry.Has (e : Entry) (x : Nat) : Prop := e.base ≤ x ∧ x < e.base + e.length

/-- The entry ends below `2 ^ 64`; it may be empty. -/
def Entry.Small (e : Entry) : Prop := e.base + e.length < 2 ^ 64

structure Entry.Valid (e : Entry) : Prop where
  pos : 0 < e.length
  small : e.Small

def Apart (e e' : Entry) : Prop := e.base + e.length ≤ e'.base ∨ e'.base + e'.length ≤ e.base

def Within (l l' : List Entry) : Prop :=
  ∀ x, ∀ e ∈ l, e.Has x → ∃ e' ∈ l', e'.Has x ∧ e.type ≤ e'.type

def Same (l l' : List Entry) : Prop := Within l l' ∧ Within l' l

variable {a b e p q t : Entry} {l l' l₁ l₂ : List Entry} {x : Nat}

theorem add64_of_lt {x y : Nat} (h : x + y < 2 ^ 64) : add64 x y = x + y := mod_eq_of_lt h

theorem sub64_of_le {x y : Nat} (h : y ≤ x) (hx : x < 2 ^ 64) : sub64 x y = x - y := by
  unfold sub64
  rw [show x + 2 ^ 64 - y = x - y + 2 ^ 64 by omega, add_mod_right]
  exact mod_eq_of_lt (by omega)

theorem Entry.Small.stop (h : e.Small) : e.stop = e.base + e.length := add64_of_lt h

theorem Entry.Small.isInvalid (h : e.Small) : e.isInvalid = decide (e.length = 0) := by
  unfold Entry.isInvalid
  rw [h.stop]
  exact decide_eq_decide.mpr (by omega)

theorem valid_of_isInvalid (hbase : e.base < 2 ^ 64) (hlength : e.length < 2 ^ 64)
    (h : e.isInvalid = false) : e.Valid := by
  unfold Entry.isInvalid Entry.stop add64 at h
  rw [decide_eq_false_iff_not] at h
  have hsmall : e.base + e.length < 2 ^ 64 := by omega
  rw [mod_eq_of_lt hsmall] at h
  exact ⟨by omega, hsmall⟩

theorem Apart.symm (h : Apart p q) : Apart q p := Or.symm h

instance : Std.Symm Apart := ⟨fun _ _ => Apart.symm⟩

theorem apart_of_forall (hp : p.Valid) (hq : q.Valid) (h : ∀ x, p.Has x → ¬q.Has x) : Apart p q := by
  have hpos := hp.pos
  have hpos' := hq.pos
  have h1 := h p.base
  have h2 := h q.base
  unfold Entry.Has at h1 h2
  unfold Apart
  omega

theorem Apart.not_has (h : Apart p q) (hp : p.Has x) : ¬q.Has x := by
  unfold Apart at h
  unfold Entry.Has at hp ⊢
  omega

/-! ## Lists with the same addresses and types -/

theorem Within.refl (l : List Entry) : Within l l := fun _ e he hx => ⟨e, he, hx, (Nat.le_refl _)⟩

theorem Within.trans (h : Within l l1) (h' : Within l1 l2) : Within l l2 := by
  intro x e he hx
  obtain ⟨e1, he1, hx1, hle1⟩ := h x e he hx
  obtain ⟨e2, he2, hx2, hle2⟩ := h' x e1 he1 hx1
  exact ⟨e2, he2, hx2, Nat.le_trans hle1 hle2⟩

theorem within_of_subset (h : l ⊆ l') : Within l l' := fun _ e he hx => ⟨e, h he, hx, (Nat.le_refl _)⟩

theorem Within.append (h : Within l l') (h' : Within l1 l2) : Within (l ++ l1) (l' ++ l2) := by
  intro x e he hx
  rcases mem_append.mp he with he | he
  · obtain ⟨e', he', h⟩ := h x e he hx
    exact ⟨e', mem_append_left _ he', h⟩
  · obtain ⟨e', he', h⟩ := h' x e he hx
    exact ⟨e', mem_append_right _ he', h⟩

theorem Same.refl (l : List Entry) : Same l l := ⟨.refl l, .refl l⟩

theorem Same.trans (h : Same l l1) (h' : Same l1 l2) : Same l l2 := ⟨h.1.trans h'.1, h'.2.trans h.2⟩

theorem Same.append (h : Same l l') (h' : Same l1 l2) : Same (l ++ l1) (l' ++ l2) :=
  ⟨h.1.append h'.1, h.2.append h'.2⟩

theorem same_of_perm (h : l.Perm l') : Same l l' :=
  ⟨within_of_subset h.subset, within_of_subset h.symm.subset⟩

theorem Within.apart (h : Within l' l) (hl : ∀ q ∈ l, Apart p q) (hp : p.Valid)
    (hl' : ∀ q ∈ l', q.Valid) : ∀ q ∈ l', Apart p q := by
  intro q hq
  refine apart_of_forall hp (hl' q hq) fun x hpx hqx => ?_
  obtain ⟨e, he, hex, -⟩ := h x q hq hqx
  exact (hl e he).not_has hpx hex

/-! ## Two entries -/

def Resolution.pieces : Resolution → List Entry
  | .merge a => [a]
  | .keep a b => [a, b]
  | .split a b tmp => [a, b, tmp]

def Resolution.head : Resolution → Entry
  | .merge a | .keep a _ | .split a _ _ => a

theorem Resolution.head_mem (r : Resolution) : r.head ∈ r.pieces := by
  cases r <;> exact mem_cons_self

/-- What a resolution of the entries of `l` is to be. -/
structure Resolves (l : List Entry) (r : Resolution) : Prop where
  valid : ∀ e ∈ r.pieces, e.Valid
  apart : r.pieces.Pairwise Apart
  same : Same l r.pieces

theorem Resolves.keep (hp : p.Valid) (hq : q.Valid) (hapart : Apart p q) (hsame : Same l [p, q]) :
    Resolves l (.keep p q) where
  valid := forall_mem_cons.mpr ⟨hp, forall_mem_singleton.mpr hq⟩
  apart := pairwise_pair.mpr hapart
  same := hsame

def Between (p t q : Entry) : Prop :=
  p.base + p.length = t.base ∧ t.base + t.length = q.base ∨
    q.base + q.length = t.base ∧ t.base + t.length = p.base

theorem not_has_of_empty (h : e.length = 0) : ¬e.Has x := by
  unfold Entry.Has
  omega

theorem same_cons_of_empty (h : e.length = 0) (l : List Entry) : Same (e :: l) l := by
  refine ⟨fun x f hf hx => ?_, within_of_subset (subset_cons_self e l)⟩
  rcases mem_cons.mp hf with rfl | hf
  · exact absurd hx (not_has_of_empty h)
  · exact ⟨f, hf, hx, (Nat.le_refl _)⟩

theorem same_of_union {l : List Entry} (hx : ∀ x, e.Has x ↔ p.Has x ∨ t.Has x) (hp : e.type = p.type)
    (ht : e.type = t.type) : Same (p :: t :: l) (e :: l) := by
  refine ⟨fun x f hf hfx => ?_, fun x f hf hfx => ?_⟩
  · rcases mem_cons.mp hf with rfl | hf
    · exact ⟨e, mem_cons_self, (hx x).mpr (.inl hfx), Nat.le_of_eq hp.symm⟩
    · rcases mem_cons.mp hf with rfl | hf
      · exact ⟨e, mem_cons_self, (hx x).mpr (.inr hfx), Nat.le_of_eq ht.symm⟩
      · exact ⟨f, mem_cons_of_mem e hf, hfx, (Nat.le_refl _)⟩
  · rcases mem_cons.mp hf with rfl | hf
    · rcases (hx x).mp hfx with hfx | hfx
      · exact ⟨p, mem_cons_self, hfx, Nat.le_of_eq hp⟩
      · exact ⟨t, mem_cons_of_mem p mem_cons_self, hfx, Nat.le_of_eq ht⟩
    · exact ⟨f, mem_cons_of_mem p (mem_cons_of_mem t hf), hfx, (Nat.le_refl _)⟩

theorem absorb_spec (hp : p.Valid) (ht : t.Valid)
    (hnext : p.base + p.length = t.base ∨ t.base + t.length = p.base) :
    (p.absorb t).Valid ∧ (p.absorb t).type = p.type ∧ ∀ x, (p.absorb t).Has x ↔ p.Has x ∨ t.Has x := by
  have hps : p.base + p.length < 2 ^ 64 := hp.small
  have hts : t.base + t.length < 2 ^ 64 := ht.small
  have hppos := hp.pos
  have htpos := ht.pos
  have hlength : (p.absorb t).length = p.length + t.length := add64_of_lt (by omega)
  have hbase : (p.absorb t).base = min p.base t.base := by
    change (if p.base > t.base then t.base else p.base) = _
    split <;> omega
  refine ⟨⟨by omega, ?_⟩, rfl, fun x => ?_⟩
  · unfold Entry.Small
    omega
  · unfold Entry.Has
    omega

theorem settle_resolves (hp : p.Small) (hq : q.Small) (ht : t.Valid) (hb : Between p t q) :
    Resolves [p, q, t] (settle p q t) ∧ ∀ x, (settle p q t).head.Has x → p.Has x ∨ t.Has x := by
  have hpos := ht.pos
  unfold Between at hb
  -- the order of the pieces does not matter
  have hperm : [p, q, t].Perm [q, p, t] := .swap q p [t]
  have hperm' : ([q] ++ [p, t]).Perm ([p, t] ++ [q]) := perm_append_comm
  have hperm'' : ([p] ++ [q, t]).Perm ([q, t] ++ [p]) := perm_append_comm
  unfold settle
  rw [hp.isInvalid, hq.isInvalid]
  simp only [decide_eq_true_eq]
  split
  next h0 =>
    exact ⟨⟨forall_mem_singleton.mpr ht, pairwise_singleton _ _,
      (same_cons_of_empty h0.1 _).trans (same_cons_of_empty h0.2 _)⟩, fun x hx => .inr hx⟩
  next h0 =>
    split
    next hp0 =>
      refine ⟨.keep ht ⟨by omega, hq⟩ ?_ ((same_cons_of_empty hp0 _).trans (same_of_perm (.swap t q []))),
        fun x hx => .inr hx⟩
      unfold Apart
      omega
    next hp0 =>
      have hpv : p.Valid := ⟨by omega, hp⟩
      split
      next hq0 =>
        refine ⟨.keep hpv ht ?_ ((same_of_perm hperm).trans (same_cons_of_empty hq0 _)), fun x hx => .inl hx⟩
        unfold Apart
        omega
      next hq0 =>
        have hqv : q.Valid := ⟨by omega, hq⟩
        split
        next htype =>
          obtain ⟨hv, hty, hhas⟩ := absorb_spec hpv ht (by omega)
          refine ⟨.keep hv hqv (apart_of_forall hv hqv fun x hx => ?_) ((same_of_perm (hperm.trans hperm')).trans
            (same_of_union hhas hty (hty.trans htype.symm))), fun x hx => (hhas x).mp hx⟩
          have := (hhas x).mp hx
          unfold Entry.Has at this ⊢
          omega
        next hne =>
          split
          next htype =>
            obtain ⟨hv, hty, hhas⟩ := absorb_spec hqv ht (by omega)
            refine ⟨.keep hpv hv (apart_of_forall hpv hv fun x hx hx' => ?_) (((same_of_perm hperm'').trans
              (same_of_union hhas hty (hty.trans htype.symm))).trans (same_of_perm (.swap p _ []))),
              fun x hx => .inl hx⟩
            have := (hhas x).mp hx'
            unfold Entry.Has at this hx
            omega
          next hne' =>
            refine ⟨⟨?_, ?_, .refl _⟩, fun x hx => .inl hx⟩
            · exact forall_mem_cons.mpr ⟨hpv, forall_mem_cons.mpr
                ⟨hqv, forall_mem_singleton.mpr ht⟩⟩
            · simp only [Resolution.pieces, pairwise_cons, mem_cons, not_mem_nil, or_false,
                forall_eq_or_imp, forall_eq, false_implies, implies_true, List.Pairwise.nil, and_true]
              unfold Apart
              omega

def Entry.behind (a b : Entry) : Entry :=
  ⟨min (a.base + a.length) (b.base + b.length),
    max (a.base + a.length) (b.base + b.length) - min (a.base + a.length) (b.base + b.length),
    if a.base + a.length > b.base + b.length then a.type else b.type⟩

def Entry.common (a b : Entry) (base : Nat) : Entry :=
  ⟨base, min (a.base + a.length) (b.base + b.length) - base, max a.type b.type⟩

theorem same_of_cut {a b p q t : Entry}
    (h : ∀ x, (a.Has x → p.Has x ∧ a.type ≤ p.type ∨ q.Has x ∧ a.type ≤ q.type ∨ t.Has x ∧ a.type ≤ t.type) ∧
      (b.Has x → p.Has x ∧ b.type ≤ p.type ∨ q.Has x ∧ b.type ≤ q.type ∨ t.Has x ∧ b.type ≤ t.type) ∧
      (p.Has x → a.Has x ∧ p.type ≤ a.type ∨ b.Has x ∧ p.type ≤ b.type) ∧
      (q.Has x → a.Has x ∧ q.type ≤ a.type ∨ b.Has x ∧ q.type ≤ b.type) ∧
      (t.Has x → a.Has x ∧ t.type ≤ a.type ∨ b.Has x ∧ t.type ≤ b.type)) : Same [a, b] [p, q, t] := by
  constructor
  · intro x e he hx
    obtain ⟨h1, h2, -⟩ := h x
    simp only [mem_cons, not_mem_nil, or_false, exists_eq_or_imp, exists_eq_left] at he ⊢
    rcases he with rfl | rfl
    · exact h1 hx
    · exact h2 hx
  · intro x e he hx
    obtain ⟨-, -, h3, h4, h5⟩ := h x
    simp only [mem_cons, not_mem_nil, or_false, exists_eq_or_imp, exists_eq_left] at he ⊢
    rcases he with rfl | rfl | rfl
    · exact h3 hx
    · exact h4 hx
    · exact h5 hx

section

variable (ha : a.Valid) (hb : b.Valid) (hover : a.base < b.base + b.length) (hover' : b.base < a.base + a.length)
include ha hb hover hover'

theorem resolve_eq : a.resolve b a.stop = if a.base < b.base then
        settle ⟨a.base, b.base - a.base, a.type⟩ (a.behind b) (a.common b b.base)
      else settle (a.behind b) ⟨b.base, a.base - b.base, b.type⟩ (a.common b a.base) := by
  have has : a.base + a.length < 2 ^ 64 := ha.small
  have hbs : b.base + b.length < 2 ^ 64 := hb.small
  have hapos := ha.pos
  have hbpos := hb.pos
  have hlast : (if a.base + a.length > b.base + b.length then a.base + a.length else b.base + b.length) =
      max (a.base + a.length) (b.base + b.length) := by
    split <;> omega
  have hcut : ∀ x ≤ min (a.base + a.length) (b.base + b.length),
      sub64 (min (a.base + a.length) (b.base + b.length)) x =
        min (a.base + a.length) (b.base + b.length) - x ∧
      add64 x (min (a.base + a.length) (b.base + b.length) - x) =
        min (a.base + a.length) (b.base + b.length) := by
    intro x hx
    refine ⟨sub64_of_le hx (by omega), ?_⟩
    rw [add64_of_lt (by omega)]
    omega
  unfold resolve behind common
  by_cases hlt : a.base < b.base
  · obtain ⟨htmp, hadd⟩ := hcut b.base (by omega)
    simp only [if_pos hlt, ha.small.stop, hb.small.stop, hlast, htmp, hadd]
    rw [sub64_of_le (Nat.le_of_lt hlt) (by omega), sub64_of_le (by omega) (by omega)]
  · obtain ⟨htmp, hadd⟩ := hcut a.base (by omega)
    simp only [if_neg hlt, ha.small.stop, hb.small.stop, hlast, htmp, hadd]
    rw [sub64_of_le (by omega) (by omega), sub64_of_le (Nat.not_lt.mp hlt) (by omega)]

theorem resolve_resolves :
    Resolves [a, b] (a.resolve b a.stop) ∧ ∀ x, (a.resolve b a.stop).head.Has x →
      a.Has x ∨ b.base ≤ a.base ∧ a.base + a.length ≤ x ∧ x < b.base + b.length := by
  have has : a.base + a.length < 2 ^ 64 := ha.small
  have hbs : b.base + b.length < 2 ^ 64 := hb.small
  have hapos := ha.pos
  have hbpos := hb.pos
  have hcommon : ∀ x < min (a.base + a.length) (b.base + b.length), (a.common b x).Valid := by
    intro x hx
    unfold common
    exact ⟨by dsimp only; omega, by unfold Entry.Small; dsimp only; omega⟩
  have hbehind : (a.behind b).Small := by
    unfold Entry.Small behind
    dsimp only
    omega
  rw [resolve_eq ha hb hover hover']
  split
  next hlt =>
    obtain ⟨hres, hhead⟩ := settle_resolves (p := ⟨a.base, b.base - a.base, a.type⟩)
      (by unfold Entry.Small; dsimp only; omega) hbehind (hcommon b.base (by omega))
      (by unfold Between behind common; dsimp only; omega)
    refine ⟨⟨hres.valid, hres.apart, Same.trans (same_of_cut fun x => ?_) hres.same⟩, fun x hx => .inl ?_⟩
    · unfold Entry.Has behind common
      dsimp only
      split <;> omega
    · have := hhead x hx
      unfold Entry.Has common at this
      unfold Entry.Has
      dsimp only at this
      omega
  next hlt =>
    obtain ⟨hres, hhead⟩ := settle_resolves (q := ⟨b.base, a.base - b.base, b.type⟩) hbehind
      (by unfold Entry.Small; dsimp only; omega) (hcommon a.base (by omega))
      (by unfold Between behind common; dsimp only; omega)
    refine ⟨⟨hres.valid, hres.apart, Same.trans (same_of_cut fun x => ?_) hres.same⟩, fun x hx => ?_⟩
    · unfold Entry.Has behind common
      dsimp only
      split <;> omega
    · have := hhead x hx
      unfold Entry.Has behind common at this
      unfold Entry.Has
      dsimp only at this
      omega

end

/-! ## The inner loop -/

/-- The comparison of `a` with `b` comes out right. If they are found apart they are; and if
they are found to overlap the end of `a` is still the one that is compared, and no entry that
has been compared before lies in what `a` takes over from `b`. -/
def stepClean (aEnd : Nat) (a : Entry) (mid : List Entry) (b : Entry) : Bool :=
  if a.base ≥ b.stop ∨ aEnd ≤ b.base then decide (a.base ≥ b.stop ∨ a.stop ≤ b.base)
  else decide (aEnd = a.stop) &&
    (decide (a.base < b.base) || mid.all fun e => e.stop ≤ a.stop || b.stop ≤ e.base)

def compareClean (before aEnd : Nat) : Nat → Entry → List Entry → List Entry → Bool
  | 0, _, _, _ => true
  | _ + 1, _, _, [] => true
  | fuel + 1, a, mid, b :: rest => stepClean aEnd a mid b &&
    match compareStep before aEnd a mid b rest with
    | none => true
    | some (a, mid, rest) => compareClean before aEnd fuel a mid rest

/-- The entry `a` has been compared with `mid`, in a list that began as `l`. -/
structure Compared (l : List Entry) (a : Entry) (mid rest : List Entry) : Prop where
  valid : ∀ e ∈ a :: (mid ++ rest), e.Valid
  apart : ∀ q ∈ mid, Apart a q
  same : Same l (a :: (mid ++ rest))

variable {before aEnd fuel : Nat} {a' : Entry} {mid mid' rest rest' : List Entry}

section

variable (h : Compared l a mid (b :: rest))
include h

theorem Compared.pieces {r : Resolution} (hr : Resolves [a, b] r) :
    (∀ e ∈ r.pieces ++ (mid ++ rest), e.Valid) ∧ Same l (r.pieces ++ (mid ++ rest)) := by
  have hperm : (a :: (mid ++ b :: rest)).Perm ([a, b] ++ (mid ++ rest)) := .cons a perm_middle
  refine ⟨forall_mem_append.mpr ⟨hr.valid, fun e he => ?_⟩,
    (h.same.trans (same_of_perm hperm)).trans (hr.same.append (.refl _))⟩
  exact h.valid e (hperm.symm.subset (mem_append_right _ he))

theorem Compared.head_apart {r : Resolution} (hv : r.head.Valid) (hhead : ∀ x, r.head.Has x →
      a.Has x ∨ b.base ≤ a.base ∧ a.base + a.length ≤ x ∧ x < b.base + b.length)
    (hclean : a.base < b.base ∨ ∀ e ∈ mid, e.stop ≤ a.stop ∨ b.stop ≤ e.base) :
    ∀ q ∈ mid, Apart r.head q := by
  intro q hq
  have ha : a.Valid := h.valid a mem_cons_self
  have hb : b.Valid := h.valid b (mem_cons_of_mem a (mem_append_right mid mem_cons_self))
  have hqv : q.Valid := h.valid q (mem_cons_of_mem a (mem_append_left _ hq))
  refine apart_of_forall hv hqv fun x hx hqx => ?_
  rcases hhead x hx with hax | ⟨hle, hgrown⟩
  · exact (h.apart q hq).not_has hax hqx
  · have hout := hclean.resolve_left (Nat.not_lt.mpr hle) q hq
    rw [hqv.small.stop, ha.small.stop, hb.small.stop] at hout
    unfold Entry.Has at hqx
    omega

theorem compareStep_keeps (hclean : stepClean aEnd a mid b = true)
    (hs : compareStep before aEnd a mid b rest = some (a', mid', rest')) :
    Compared l a' mid' rest' := by
  have ha : a.Valid := h.valid a mem_cons_self
  have hb : b.Valid := h.valid b (mem_cons_of_mem a (mem_append_right mid mem_cons_self))
  unfold compareStep at hs
  unfold stepClean at hclean
  by_cases hfound : a.base ≥ b.stop ∨ aEnd ≤ b.base
  · rw [if_pos hfound] at hs hclean
    cases hs
    have hapart : Apart a b := by
      rw [decide_eq_true_eq, ha.small.stop, hb.small.stop] at hclean
      exact hclean.symm
    refine ⟨?_, forall_mem_append.mpr ⟨h.apart, forall_mem_singleton.mpr hapart⟩, ?_⟩
    · rw [append_assoc]
      exact h.valid
    · rw [append_assoc]
      exact h.same
  · rw [if_neg hfound] at hs hclean
    obtain ⟨hend, hgrown⟩ : aEnd = a.stop ∧
        (a.base < b.base ∨ ∀ e ∈ mid, e.stop ≤ a.stop ∨ b.stop ≤ e.base) := by
      simpa using hclean
    subst hend
    rw [not_or, ha.small.stop, hb.small.stop] at hfound
    obtain ⟨hres, hhead⟩ := resolve_resolves ha hb (by omega) (by omega)
    obtain ⟨hvalid, hsame⟩ := h.pieces hres
    have hmid := h.head_apart (hres.valid _ (a.resolve b a.stop).head_mem) hhead hgrown
    have hswap : ∀ q, ([q] ++ mid).Perm (mid ++ [q]) := fun _ => perm_append_comm
    cases hr : a.resolve b a.stop with
    | merge t =>
      rw [hr] at hs hvalid hsame hmid
      cases hs
      exact ⟨hvalid, hmid, hsame⟩
    | keep p q =>
      rw [hr] at hs hres hvalid hsame hmid
      cases hs
      have hperm : ([a', q] ++ (mid ++ rest)).Perm (a' :: ((mid ++ [q]) ++ rest)) :=
        .cons a' ((hswap q).append_right rest)
      exact ⟨fun e he => hvalid e (hperm.symm.subset he), forall_mem_append.mpr ⟨hmid,
        forall_mem_singleton.mpr (rel_of_pairwise_cons hres.apart mem_cons_self)⟩,
        hsame.trans (same_of_perm hperm)⟩
    | split p q t =>
      rw [hr] at hs hres hvalid hsame hmid
      dsimp only at hs
      split at hs
      · cases hs
      cases hs
      have hperm : ([a', q, t] ++ (mid ++ rest)).Perm (a' :: ((mid ++ [q]) ++ (rest ++ [t]))) := by
        refine .cons a' ?_
        have h1 : ([q, t] ++ (mid ++ rest)).Perm ([q] ++ ((mid ++ rest) ++ [t])) :=
          .cons q perm_append_comm
        refine h1.trans ?_
        simpa using (hswap q).append_right (rest ++ [t])
      exact ⟨fun e he => hvalid e (hperm.symm.subset he), forall_mem_append.mpr ⟨hmid,
        forall_mem_singleton.mpr (rel_of_pairwise_cons hres.apart mem_cons_self)⟩,
        hsame.trans (same_of_perm hperm)⟩

end

theorem compareLoop_keeps : ∀ {fuel : Nat} {a : Entry} {mid rest : List Entry},
    Compared l a mid rest → compareClean before aEnd fuel a mid rest = true →
    compareLoop before aEnd fuel a mid rest = .done (a', mid') → Compared l a' mid' []
  | 0, _, _, _, _, _, hs => by cases hs
  | fuel + 1, a, mid, [], h, _, hs => by
    cases hs
    exact h
  | fuel + 1, a, mid, b :: rest, h, hclean, hs => by
    rw [compareClean, Bool.and_eq_true] at hclean
    rw [compareLoop] at hs
    cases hstep : compareStep before aEnd a mid b rest with
    | none =>
      rw [hstep] at hs
      cases hs
    | some r =>
      obtain ⟨a1, mid1, rest1⟩ := r
      rw [hstep] at hs hclean
      exact compareLoop_keeps (compareStep_keeps h hclean.1 hstep) hclean.2 hs

/-! ## The outer loop -/

def adjustClean : Nat → List Entry → List Entry → Bool
  | 0, _, _ => true
  | _ + 1, _, [] => true
  | fuel + 1, before, a :: rest => compareClean before.length a.stop 1024 a [] rest &&
    match compareLoop before.length a.stop 1024 a [] rest with
    | .done (a, rest) => adjustClean fuel (before ++ [a]) rest
    | _ => true

/-- The comparisons that `biosmem_map_adjust` makes come out right. -/
def mapClean (map : List Entry) : Bool := adjustClean 257 [] (mapFilter map)

/-- The entries of `done` are apart from each other and from the rest, in a list that began
as `l`. -/
structure Adjusted (l done rest : List Entry) : Prop where
  valid : ∀ e ∈ done ++ rest, e.Valid
  apart : done.Pairwise Apart
  ahead : ∀ p ∈ done, ∀ q ∈ rest, Apart p q
  same : Same l (done ++ rest)

theorem Adjusted.next {done : List Entry} (h : Adjusted l done (a :: rest))
    (hc : Compared (a :: rest) a' rest' []) : Adjusted l (done ++ [a']) rest' := by
  have hvalid : ∀ e ∈ a' :: rest', e.Valid := by simpa using hc.valid
  have hapart : ∀ q ∈ rest', Apart a' q := hc.apart
  have hsame : Same (a :: rest) (a' :: rest') := by simpa using hc.same
  -- what has been done is apart from the new entries as it was from the old ones
  have hdone : ∀ p ∈ done, ∀ q ∈ a' :: rest', Apart p q := by
    intro p hp
    exact hsame.2.apart (h.ahead p hp) (h.valid p (mem_append_left _ hp)) hvalid
  refine ⟨?_, ?_, ?_, ?_⟩
  · rw [append_assoc]
    exact forall_mem_append.mpr ⟨fun e he => h.valid e (mem_append_left _ he), hvalid⟩
  · refine pairwise_append.mpr ⟨h.apart, pairwise_singleton _ _, ?_⟩
    intro p hp q hq
    exact hdone p hp q (mem_singleton.mp hq ▸ mem_cons_self)
  · intro p hp q hq
    rcases mem_append.mp hp with hp | hp
    · exact hdone p hp q (mem_cons_of_mem a' hq)
    · exact mem_singleton.mp hp ▸ hapart q hq
  · rw [append_assoc]
    exact h.same.trans ((Same.refl done).append hsame)

theorem adjustLoop_keeps : ∀ {fuel : Nat} {done rest : List Entry}, Adjusted l done rest →
    adjustClean fuel done rest = true → adjustLoop fuel done rest = .done l' → Adjusted l l' []
  | 0, _, _, _, _, hs => by cases hs
  | fuel + 1, done, [], h, _, hs => by
    cases hs
    exact h
  | fuel + 1, done, a :: rest, h, hclean, hs => by
    rw [adjustClean, Bool.and_eq_true] at hclean
    rw [adjustLoop] at hs
    cases hloop : compareLoop done.length a.stop 1024 a [] rest with
    | panic => rw [hloop] at hs; cases hs
    | stuck => rw [hloop] at hs; cases hs
    | done r =>
      obtain ⟨a1, rest1⟩ := r
      rw [hloop] at hs hclean
      have hstart : Compared (a :: rest) a [] rest := by
        refine ⟨fun e he => h.valid e (mem_append_right done he), fun q hq => ?_, .refl _⟩
        cases hq
      exact adjustLoop_keeps (h.next (compareLoop_keeps hstart hclean.1 hloop)) hclean.2 hs

/-! ## Sorting -/

theorem insertBack_perm (tmp : Entry) (l : List Entry) : (insertBack tmp l).Perm (tmp :: l) := by
  induction l with
  | nil => exact .refl _
  | cons e rest ih =>
    rw [insertBack]
    split
    next => exact .refl _
    next => exact (ih.cons e).trans (.swap tmp e rest)

theorem insertBack_sorted (tmp : Entry) {l : List Entry} (h : l.Pairwise fun e e' => e'.base ≤ e.base) :
    (insertBack tmp l).Pairwise fun e e' => e'.base ≤ e.base := by
  induction l with
  | nil => exact pairwise_singleton _ _
  | cons e rest ih =>
    obtain ⟨he, hrest⟩ := pairwise_cons.mp h
    rw [insertBack]
    split
    next hlt =>
      refine pairwise_cons.mpr ⟨fun f hf => ?_, h⟩
      rcases mem_cons.mp hf with rfl | hf
      · exact Nat.le_of_lt hlt
      · exact Nat.le_trans (he f hf) (Nat.le_of_lt hlt)
    next hge =>
      refine pairwise_cons.mpr ⟨fun f hf => ?_, ih hrest⟩
      rcases mem_cons.mp ((insertBack_perm tmp rest).subset hf) with rfl | hf
      · exact Nat.not_lt.mp hge
      · exact he f hf

theorem foldl_insertBack (l sorted : List Entry) (h : sorted.Pairwise fun e e' => e'.base ≤ e.base) :
    (l.foldl (fun sorted tmp => insertBack tmp sorted) sorted).Perm (l ++ sorted) ∧
      (l.foldl (fun sorted tmp => insertBack tmp sorted) sorted).Pairwise fun e e' => e'.base ≤ e.base := by
  induction l generalizing sorted with
  | nil => exact ⟨.refl _, h⟩
  | cons tmp l ih =>
    obtain ⟨hperm, hsorted⟩ := ih (insertBack tmp sorted) (insertBack_sorted tmp h)
    refine ⟨hperm.trans ?_, hsorted⟩
    exact ((insertBack_perm tmp sorted).append_left l).trans perm_middle

theorem mapSort_spec (l : List Entry) :
    (mapSort l).Perm l ∧ (mapSort l).Pairwise fun e e' => e.base ≤ e'.base := by
  obtain ⟨hperm, hsorted⟩ := foldl_insertBack l [] List.Pairwise.nil
  refine ⟨(reverse_perm _).trans (hperm.trans ?_), pairwise_reverse.mpr hsorted⟩
  rw [append_nil]

/-! ## Termination -/

theorem compareStep_measure (hsize : before + 1 + mid.length + 1 + rest.length ≤ 256)
    (hs : compareStep before aEnd a mid b rest = some (a', mid', rest')) :
    before + 1 + mid'.length + rest'.length ≤ 256 ∧
      2 * rest'.length + (256 - (before + 1 + mid'.length + rest'.length)) <
        2 * (rest.length + 1) + (256 - (before + 1 + mid.length + 1 + rest.length)) := by
  unfold compareStep at hs
  split at hs
  next =>
    cases hs
    rw [length_append, length_singleton]
    omega
  next =>
    split at hs
    next =>
      cases hs
      omega
    next =>
      cases hs
      rw [length_append, length_singleton]
      omega
    next =>
      split at hs
      · cases hs
      rename_i hroom
      cases hs
      rw [maxMapSize] at hroom
      rw [length_append, length_append, length_singleton, length_singleton]
      omega

theorem compareLoop_ends : ∀ {fuel : Nat} {a : Entry} {mid rest : List Entry},
    before + 1 + mid.length + rest.length ≤ 256 →
    2 * rest.length + (256 - (before + 1 + mid.length + rest.length)) < fuel →
    compareLoop before aEnd fuel a mid rest ≠ .stuck ∧
      ∀ a' rest', compareLoop before aEnd fuel a mid rest = .done (a', rest') →
        before + 1 + rest'.length ≤ 256
  | 0, _, _, _, _, hfuel => absurd hfuel (not_lt_zero _)
  | fuel + 1, a, mid, [], hsize, _ => by
    refine ⟨nofun, fun a' rest' h => ?_⟩
    cases h
    exact hsize
  | fuel + 1, a, mid, b :: rest, hsize, hfuel => by
    rw [length_cons] at hsize hfuel
    rw [compareLoop]
    cases hstep : compareStep before aEnd a mid b rest with
    | none => exact ⟨nofun, nofun⟩
    | some r =>
      obtain ⟨a1, mid1, rest1⟩ := r
      obtain ⟨hsize', hless⟩ := compareStep_measure (by omega) hstep
      exact compareLoop_ends hsize' (by omega)

theorem adjustLoop_ends : ∀ {fuel : Nat} {done rest : List Entry},
    done.length + rest.length ≤ 256 → 256 < done.length + fuel → adjustLoop fuel done rest ≠ .stuck
  | 0, done, rest, hsize, hfuel => absurd hfuel (by omega)
  | fuel + 1, done, [], _, _ => nofun
  | fuel + 1, done, a :: rest, hsize, hfuel => by
    rw [length_cons] at hsize
    rw [adjustLoop]
    obtain ⟨hne, hdone⟩ := @compareLoop_ends done.length a.stop 1024 a [] rest
      (by rw [length_nil]; omega) (by rw [length_nil]; omega)
    cases hloop : compareLoop done.length a.stop 1024 a [] rest with
    | panic => exact nofun
    | stuck => exact absurd hloop hne
    | done r =>
      obtain ⟨a1, rest1⟩ := r
      have := hdone a1 rest1 hloop
      apply adjustLoop_ends
      · rw [length_append, length_singleton]
        omega
      · rw [length_append, length_singleton]
        omega

/-! ## The whole map -/

/-- The entries that contain an address have this highest type. -/
def Top (l : List Entry) (x t : Nat) : Prop :=
  (∃ e ∈ l, e.Has x ∧ e.type = t) ∧ ∀ e ∈ l, e.Has x → e.type ≤ t

/-- The entries of the map are disjoint and in order, and have the addresses of the valid
entries of `map`, each with its highest type. -/
structure Resolved (map result : List Entry) : Prop where
  valid : ∀ e ∈ result, e.Valid
  ordered : result.Pairwise fun e e' => e.base + e.length ≤ e'.base
  types : ∀ x t, (∃ e ∈ result, e.Has x ∧ e.type = t) ↔ Top (mapFilter map) x t

theorem top_of_same (h : Same l l') (hapart : l'.Pairwise Apart) (x t : Nat) :
    (∃ e ∈ l', e.Has x ∧ e.type = t) ↔ Top l x t := by
  have hone : ∀ e ∈ l', ∀ f ∈ l', e.Has x → f.Has x → e = f := by
    intro e he f hf hex hfx
    by_cases hef : e = f
    · exact hef
    · exact absurd hfx ((hapart.forall he hf hef).not_has hex)
  constructor
  · rintro ⟨e, he, hex, rfl⟩
    have hle : ∀ f ∈ l, f.Has x → f.type ≤ e.type := by
      intro f hf hfx
      obtain ⟨g, hg, hgx, hle⟩ := h.1 x f hf hfx
      exact hone g hg e he hgx hex ▸ hle
    obtain ⟨f, hf, hfx, hef⟩ := h.2 x e he hex
    exact ⟨⟨f, hf, hfx, Nat.le_antisymm (hle f hf hfx) hef⟩, hle⟩
  · rintro ⟨⟨f, hf, hfx, rfl⟩, hle⟩
    obtain ⟨e, he, hex, hfe⟩ := h.1 x f hf hfx
    obtain ⟨g, hg, hgx, heg⟩ := h.2 x e he hex
    exact ⟨e, he, hex, Nat.le_antisymm (Nat.le_trans heg (hle g hg hgx)) hfe⟩

/-- **`biosmem_map_adjust`** ends; and unless it panics it resolves the map, if no comparison
goes wrong. -/
theorem mapAdjust_resolves (map : List Entry) (hsize : map.length ≤ maxMapSize)
    (hfields : ∀ e ∈ map, e.base < 2 ^ 64 ∧ e.length < 2 ^ 64) :
    mapAdjust map ≠ .stuck ∧
      ∀ result, mapAdjust map = .done result → mapClean map = true → Resolved map result := by
  have hlength : (mapFilter map).length ≤ maxMapSize := Nat.le_trans (length_filter_le _ _) hsize
  rw [maxMapSize] at hlength
  have hends : adjustLoop 257 [] (mapFilter map) ≠ .stuck := by
    apply adjustLoop_ends
    · rw [length_nil]
      omega
    · rw [length_nil]
      omega
  unfold mapAdjust mapClean
  cases hloop : adjustLoop 257 [] (mapFilter map) with
  | stuck => exact absurd hloop hends
  | panic => exact ⟨nofun, nofun⟩
  | done l =>
    refine ⟨nofun, fun result h hclean => ?_⟩
    cases h
    have hstart : Adjusted (mapFilter map) [] (mapFilter map) := by
      refine ⟨fun e he => ?_, List.Pairwise.nil, fun p hp => ?_, .refl _⟩
      · obtain ⟨he, hv⟩ := mem_filter.mp he
        exact valid_of_isInvalid (hfields e he).1 (hfields e he).2 (Bool.not_eq_true' _ ▸ hv)
      · cases hp
    have hend := adjustLoop_keeps hstart hclean hloop
    have hvalid : ∀ e ∈ l, e.Valid := by simpa using hend.valid
    have hsame : Same (mapFilter map) l := by simpa using hend.same
    obtain ⟨hperm, hsorted⟩ := mapSort_spec l
    have hapart : (mapSort l).Pairwise Apart :=
      (hperm.pairwise_iff Apart.symm).mpr hend.apart
    refine ⟨fun e he => hvalid e (hperm.subset he), ?_,
      top_of_same (hsame.trans (same_of_perm hperm.symm)) hapart⟩
    -- entries that are apart and begin in order end in order
    refine (hapart.and hsorted).imp_of_mem fun {e e'} he he' h => ?_
    have hpos := (hvalid e' (hperm.subset he')).pos
    rcases h.1 with hle | hle
    · exact hle
    · have := h.2
      omega

def acrossEnd : List Entry := [⟨0, 0xA0000, 1⟩, ⟨0x9F000, 0x61000, 2⟩, ⟨0x100000, 0x700000, 1⟩]

theorem acrossEnd_resolved : ∃ result, mapAdjust acrossEnd = .done result ∧
    Resolved acrossEnd result := by
  have hrun : mapAdjust acrossEnd =
      .done [⟨0, 0x9F000, 1⟩, ⟨0x9F000, 0x61000, 2⟩, ⟨0x100000, 0x700000, 1⟩] := by decide
  have hfields : ∀ e ∈ acrossEnd, e.base < 2 ^ 64 ∧ e.length < 2 ^ 64 := by decide
  have hclean : mapClean acrossEnd = true := by decide
  exact ⟨_, hrun, (mapAdjust_resolves acrossEnd (by decide) hfields).2 _ hrun hclean⟩

/-- Two available ranges that begin together, and a reserved one beyond the end of the
shorter: it is still available in the result. -/
theorem reserved_stays_available :
    ∃ map result, map.length ≤ maxMapSize ∧ (∀ e ∈ map, e.base < 2 ^ 64 ∧ e.length < 2 ^ 64) ∧
      mapAdjust map = .done result ∧ Top (mapFilter map) 0xC000 2 ∧
      (∃ e ∈ result, e.Has 0xC000 ∧ e.type = 1) ∧ ¬Resolved map result := by
  let map : List Entry := [⟨0, 0xA000, 1⟩, ⟨0, 0x14000, 1⟩, ⟨0xC000, 0x3000, 2⟩]
  let result : List Entry := [⟨0, 0xA000, 1⟩, ⟨0xA000, 0xA000, 1⟩, ⟨0xC000, 0x3000, 2⟩]
  have hrun : mapAdjust map = .done result := by decide
  have hfields : ∀ e ∈ map, e.base < 2 ^ 64 ∧ e.length < 2 ^ 64 := by decide
  have htop : Top (mapFilter map) 0xC000 2 := by
    unfold Top Entry.Has
    decide
  have havail : ∃ e ∈ result, e.Has 0xC000 ∧ e.type = 1 := by
    unfold Entry.Has
    decide
  refine ⟨map, result, by decide, hfields, hrun, htop, havail, fun h => ?_⟩
  obtain ⟨e, he, hx, htype⟩ := htop.1
  have hle := ((h.types 0xC000 1).mp havail).2 e he hx
  omega

end Mach.I386at.Biosmem
