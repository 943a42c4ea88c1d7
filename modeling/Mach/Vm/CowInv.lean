import Mach.Vm.CowChain

/-!
# The shape of shadow chains

`Wf` says how objects, copies and references fit together. The part that the snapshots rest
on is `alone`: an object that may be written is shadowed by its copy object only. References
come in because `vm_object_collapse` frees the backing object when there is just one: nothing
else lies over it then.
-/

namespace Mach.Vm.Cow

open Lib Lib.Overlay Function Option Finset

variable {V : Type} {L L' : Layers V} {copy copy' : Nat → Option Nat} {refs refs' : Nat → Nat}
  {next : Nat} {held : Nat → Nat} {readOnly : Nat → Bool} {i b : Nat} {l l' m : Layer V}

/-- The layers that lie over `p`. -/
def shadowers (L : Layers V) (next p : Nat) : Finset Nat :=
  (Finset.range next).filter fun j => (L j).bind Layer.below = some p

variable {j : Nat}

theorem mem_shadowers {p : Nat} : j ∈ shadowers L next p ↔
    j < next ∧ ∃ l, L j = some l ∧ l.below = some p := by
  rw [shadowers, mem_filter, mem_range, bind_eq_some_iff]

structure Wf (L : Layers V) (copy : Nat → Option Nat) (refs : Nat → Nat) (next : Nat)
    (held : Nat → Nat) (readOnly : Nat → Bool) : Prop where
  ranked : ∃ rank, Ranked L rank ∧ ∀ i, (L i).isSome → rank i < next
  fresh : ∀ i, (L i).isSome → i < next
  windowed : Windowed L
  copied : ∀ i c, copy i = some c → ∃ l m, L i = some l ∧ L c = some m ∧ m.below = some i ∧
    m.offset = 0 ∧ m.size = l.size
  alone : ∀ i l w, L i = some l → l.below = some w → readOnly w = false → copy w = some i
  refs : ∀ i, (L i).isSome → held i + (shadowers L next i).card ≤ refs i
  live : ∀ i, 0 < held i → (L i).isSome

section

variable (h : Wf L copy refs next held readOnly) (hl : L i = some l) (hb : l.below = some b)
include h hl hb

theorem Wf.isSome_below : (L b).isSome := by
  obtain ⟨rank, hr, _⟩ := h.ranked
  exact hr.live hl hb

theorem Wf.below_ne : b ≠ i := by
  obtain ⟨rank, hr, _⟩ := h.ranked
  rintro rfl
  exact Nat.lt_irrefl _ (hr.lt hl hb)

theorem Wf.only (hone : refs b = 1) :
    held b = 0 ∧ ∀ j n, L j = some n → n.below = some b → j = i := by
  have hrefs := h.refs b (h.isSome_below hl hb)
  have hmem : i ∈ shadowers L next b := mem_shadowers.mpr ⟨h.fresh i (hl ▸ rfl), l, hl, hb⟩
  have hpos := card_pos.mpr ⟨i, hmem⟩
  refine ⟨by omega, fun j n hj hn => ?_⟩
  have hmem' : j ∈ shadowers L next b := mem_shadowers.mpr ⟨h.fresh j (hj ▸ rfl), n, hj, hn⟩
  exact card_le_one.mp (by omega) j hmem' i hmem

end

/-! ## Pages change -/

structure SetGet (L L' : Layers V) (i : Nat) (l l' : Layer V) : Prop where
  was : L i = some l
  is : L' i = some l'
  size : l'.size = l.size
  below : l'.below = l.below
  offset : l'.offset = l.offset
  other : ∀ j, j ≠ i → L' j = L j

theorem SetGet.back (h : SetGet L L' i l l') {n' : Layer V} (hj : L' j = some n') :
    ∃ n, L j = some n ∧ n'.size = n.size ∧ n'.below = n.below ∧ n'.offset = n.offset := by
  by_cases hji : j = i
  · subst hji
    cases h.is.symm.trans hj
    exact ⟨l, h.was, h.size, h.below, h.offset⟩
  · exact ⟨n', (h.other j hji).symm.trans hj, rfl, rfl, rfl⟩

theorem SetGet.symm (h : SetGet L L' i l l') : SetGet L' L i l' l :=
  ⟨h.is, h.was, h.size.symm, h.below.symm, h.offset.symm, fun j hj => (h.other j hj).symm⟩

theorem SetGet.isSome (h : SetGet L L' i l l') (hj : (L j).isSome) : (L' j).isSome := by
  obtain ⟨n, hn⟩ := isSome_iff_exists.mp hj
  obtain ⟨n', hn', _⟩ := h.symm.back hn
  rw [hn']
  rfl

theorem SetGet.wf (hs : SetGet L L' i l l') (h : Wf L copy refs next held readOnly) :
    Wf L' copy refs next held readOnly := by
  obtain ⟨rank, hr, hbound⟩ := h.ranked
  refine ⟨⟨rank, ⟨fun hj hk => ?_, fun hj hk => ?_⟩, fun j hj => hbound j (hs.symm.isSome hj)⟩,
    fun j hj => h.fresh j (hs.symm.isSome hj), fun hj hk hp => ?_, fun j c hc => ?_,
    fun j n w hj hw hro => ?_, fun j hj => ?_, fun j hj => hs.isSome (h.live j hj)⟩
  · obtain ⟨n, hn, _, hbelow, _⟩ := hs.back hj
    exact hs.isSome (hr.live hn (hbelow.symm.trans hk))
  · obtain ⟨n, hn, _, hbelow, _⟩ := hs.back hj
    exact hr.lt hn (hbelow.symm.trans hk)
  · obtain ⟨n, hn, hsize, hbelow, hoffset⟩ := hs.back hj
    obtain ⟨p, hp', hpsize, _, _⟩ := hs.back hp
    rw [hsize, hoffset, hpsize]
    exact h.windowed hn (hbelow.symm.trans hk) hp'
  · obtain ⟨n, p, hn, hp, hbelow, hoffset, hsize⟩ := h.copied j c hc
    obtain ⟨n', hn', hnsize, _, _⟩ := hs.symm.back hn
    obtain ⟨p', hp', hpsize, hpbelow, hpoffset⟩ := hs.symm.back hp
    exact ⟨n', p', hn', hp', hpbelow.symm.trans hbelow, hpoffset.symm.trans hoffset,
      hpsize.symm.trans (hsize.trans hnsize)⟩
  · obtain ⟨n', hn', _, hbelow, _⟩ := hs.back hj
    exact h.alone j n' w hn' (hbelow.symm.trans hw) hro
  · have hsub : shadowers L' next j ⊆ shadowers L next j := by
      intro k hk
      obtain ⟨hlt, n, hn, hbelow⟩ := mem_shadowers.mp hk
      obtain ⟨n', hn', _, hbelow', _⟩ := hs.back hn
      exact mem_shadowers.mpr ⟨hlt, n', hn', hbelow'.symm.trans hbelow⟩
    have := h.refs j (hs.symm.isSome hj)
    have := card_le_card hsub
    omega

/-! ## Collapsing -/

/-- The object `i` takes the place of the object `b` in the chain. -/
structure Past (L L' : Layers V) (i b : Nat) (l l' m : Layer V) : Prop where
  was : L i = some l
  below : l.below = some b
  backing : L b = some m
  is : L' i = some l'
  size : l'.size = l.size
  below' : l'.below = m.below
  offset : l'.offset = l.offset + m.offset
  other : ∀ j, j ≠ i → j ≠ b → L' j = L j

section

variable (hp : Past L L' i b l l' m)
include hp

section

variable (hgone : L' b = none ∨ L' b = L b)
include hgone

theorem Past.cases {n : Layer V} (hj : L' j = some n) : j = i ∧ n = l' ∨ j ≠ i ∧ L j = some n := by
  by_cases hji : j = i
  · exact .inl ⟨hji, Option.some.inj (hj.symm.trans (hji ▸ hp.is))⟩
  · refine .inr ⟨hji, ?_⟩
    by_cases hjb : j = b
    · subst hjb
      rcases hgone with hnone | hsame
      · cases hnone.symm.trans hj
      · exact hsame.symm.trans hj
    · exact (hp.other j hji hjb).symm.trans hj

theorem Past.isSome (hjb : L' b = none → j ≠ b) (hj : (L j).isSome) : (L' j).isSome := by
  by_cases hji : j = i
  · rw [hji, hp.is]
    rfl
  · by_cases hjb' : j = b
    · rcases hgone with hnone | hsame
      · exact absurd hjb' (hjb hnone)
      · rwa [hjb', hsame, ← hjb']
    · rwa [hp.other j hji hjb']

theorem Past.isSome_back (hj : (L' j).isSome) : (L j).isSome := by
  obtain ⟨n, hn⟩ := isSome_iff_exists.mp hj
  rcases hp.cases hgone hn with ⟨rfl, -⟩ | ⟨-, hn'⟩
  · exact hp.was ▸ rfl
  · exact hn' ▸ rfl

omit hgone in
theorem Past.windowed (h : Wf L copy refs next held readOnly) (hgone : L' b = none ∨ L' b = L b) :
    Windowed L' := by
  -- the size of what is still there has not changed
  have hsize : ∀ {j n'}, L' j = some n' → ∃ n, L j = some n ∧ n'.size = n.size := by
    intro j n' hj
    rcases hp.cases hgone hj with ⟨rfl, rfl⟩ | ⟨-, hj'⟩
    · exact ⟨l, hp.was, hp.size⟩
    · exact ⟨n', hj', rfl⟩
  intro j n k p hj hk hkp
  obtain ⟨p0, hp0, hpsize⟩ := hsize hkp
  rw [hpsize]
  rcases hp.cases hgone hj with ⟨rfl, rfl⟩ | ⟨-, hj'⟩
  · have h1 := h.windowed hp.was hp.below hp.backing
    have h2 := h.windowed hp.backing (hp.below'.symm.trans hk) hp0
    rw [hp.size, hp.offset]
    omega
  · exact h.windowed hj' hk hp0

omit hgone in
theorem Past.ranked {rank : Nat → Nat} (hr : Ranked L rank)
    (hgone : (L' b = none ∧ ∀ j n, L j = some n → n.below = some b → j = i) ∨ L' b = L b) :
    Ranked L' rank := by
  have hgone' := hgone.imp_left And.left
  refine ⟨fun {j n k} hj hk => ?_, fun {j n k} hj hk => ?_⟩
  · rcases hp.cases hgone' hj with ⟨rfl, rfl⟩ | ⟨hji, hj'⟩
    · have hk' := hp.below'.symm.trans hk
      have hlt := hr.lt hp.backing hk'
      exact hp.isSome hgone' (fun _ hkb => Nat.lt_irrefl _ (hkb ▸ hlt)) (hr.live hp.backing hk')
    · refine hp.isSome hgone' (fun hnone hkb => ?_) (hr.live hj' hk)
      rcases hgone with ⟨_, honly⟩ | hsame
      · exact hji (honly j n hj' (hkb ▸ hk))
      · cases hp.backing.symm.trans (hsame.symm.trans hnone)
  · rcases hp.cases hgone' hj with ⟨rfl, rfl⟩ | ⟨-, hj'⟩
    · exact (hr.lt hp.backing (hp.below'.symm.trans hk)).trans (hr.lt hp.was hp.below)
    · exact hr.lt hj' hk

theorem Past.shadowers {k : Nat} (hk : k ∈ shadowers L' next j) :
    k = i ∧ m.below = some j ∨ k ≠ i ∧ k ∈ shadowers L next j := by
  obtain ⟨hlt, n, hn, hbelow⟩ := mem_shadowers.mp hk
  rcases hp.cases hgone hn with ⟨rfl, rfl⟩ | ⟨hki, hn'⟩
  · exact .inl ⟨rfl, hp.below'.symm.trans hbelow⟩
  · exact .inr ⟨hki, mem_shadowers.mpr ⟨hlt, n, hn', hbelow⟩⟩

theorem Past.card_le (hj : m.below ≠ some j) :
    (Cow.shadowers L' next j).card ≤ (Cow.shadowers L next j).card := by
  refine card_le_card fun k hk => ?_
  rcases hp.shadowers hgone hk with ⟨-, hbelow⟩ | ⟨-, hk'⟩
  · exact absurd hbelow hj
  · exact hk'

end

variable (h : Wf L copy refs next held readOnly)
include h

theorem Past.copied {c : Nat} (hc : copy j = some c) (hj : j ≠ i → L' j = L j) (hci : c ≠ i)
    (hcb : L' c = L c) :
    ∃ n p, L' j = some n ∧ L' c = some p ∧ p.below = some j ∧ p.offset = 0 ∧ p.size = n.size := by
  obtain ⟨n, p, hn, hpc, hbelow, hoffset, hsize⟩ := h.copied j c hc
  by_cases hji : j = i
  · subst hji
    cases hp.was.symm.trans hn
    exact ⟨l', p, hp.is, hcb.trans hpc, hbelow, hoffset, hsize.trans hp.size.symm⟩
  · exact ⟨n, p, (hj hji).trans hn, hcb.trans hpc, hbelow, hoffset, hsize⟩

theorem Past.not_written (hnocopy : ∀ r, m.below = some r → copy r = none) {w : Nat}
    (hw : l'.below = some w) : readOnly w ≠ false := by
  intro hro
  have hw' := hp.below'.symm.trans hw
  cases (hnocopy w hw').symm.trans (h.alone b m w hp.backing hw' hro)

theorem Past.copy_ne {c : Nat} (hc : copy j = some c) (hjb : j ≠ b) : c ≠ i := by
  obtain ⟨_, p, _, hpc, hbelow, _⟩ := h.copied j c hc
  rintro rfl
  cases hp.was.symm.trans hpc
  cases hp.below.symm.trans hbelow
  exact hjb rfl

theorem Past.merge (hb : L' b = none) (hone : refs b = 1)
    (hnocopy : ∀ r, m.below = some r → copy r = none) (hcopy : ∀ j, j ≠ b → copy' j = copy j)
    (hcopyb : copy' b = none) (hrefs : ∀ j, j ≠ b → refs' j = refs j) :
    Wf L' copy' refs' next held readOnly := by
  obtain ⟨hheld, honly⟩ := h.only hp.was hp.below hone
  obtain ⟨rank, hr, hbound⟩ := h.ranked
  have hback : ∀ {j}, (L' j).isSome → (L j).isSome := hp.isSome_back (.inl hb)
  have hnotb : ∀ {j}, (L' j).isSome → j ≠ b := by
    rintro j hj rfl
    rw [hb] at hj
    cases hj
  refine ⟨⟨rank, hp.ranked hr (.inl ⟨hb, honly⟩), fun j hj => hbound j (hback hj)⟩,
    fun j hj => h.fresh j (hback hj), hp.windowed h (.inl hb), fun j c hc => ?_,
    fun j n w hj hw hro => ?_, fun j hj => ?_, fun j hj => ?_⟩
  · have hjb : j ≠ b := by
      rintro rfl
      cases hcopyb.symm.trans hc
    rw [hcopy j hjb] at hc
    obtain ⟨n, p, hn, hpc, hbelow, hoffset, hsize⟩ := h.copied j c hc
    -- the copy is neither the backing object nor the object itself
    have hcb : c ≠ b := by
      rintro rfl
      cases hp.backing.symm.trans hpc
      rw [hnocopy j hbelow] at hc
      cases hc
    have hci := hp.copy_ne h hc hjb
    exact hp.copied h hc (hp.other j · hjb) hci (hp.other c hci hcb)
  · rcases hp.cases (.inl hb) hj with ⟨rfl, rfl⟩ | ⟨hji, hj'⟩
    · exact absurd hro (hp.not_written h hnocopy hw)
    · have hwb : w ≠ b := fun hwb => hji (honly j n hj' (hwb ▸ hw))
      rw [hcopy w hwb]
      exact h.alone j n w hj' hw hro
  · have hle := h.refs j (hback hj)
    rw [hrefs j (hnotb hj)]
    by_cases hr' : m.below = some j
    · -- `i` comes in for `b`
      have hsub : Cow.shadowers L' next j ⊆ insert i ((Cow.shadowers L next j).erase b) := by
        intro k hk
        rcases hp.shadowers (.inl hb) hk with ⟨rfl, -⟩ | ⟨-, hk'⟩
        · exact mem_insert_self _ _
        · obtain ⟨-, n, hn, -⟩ := mem_shadowers.mp hk
          exact mem_insert_of_mem (mem_erase.mpr ⟨hnotb (hn ▸ rfl), hk'⟩)
      have hmem : b ∈ Cow.shadowers L next j :=
        mem_shadowers.mpr ⟨h.fresh b (hp.backing ▸ rfl), m, hp.backing, hr'⟩
      have h1 := card_le_card hsub
      have h2 := card_insert_le i ((Cow.shadowers L next j).erase b)
      have h3 := card_erase_add_one hmem
      omega
    · have h1 : (Cow.shadowers L' next j).card ≤ _ := hp.card_le (.inl hb) hr'
      omega
  · refine hp.isSome (.inl hb) (fun _ => ?_) (h.live j hj)
    rintro rfl
    omega

theorem Past.bypass (hb : L' b = L b)
    (hnocopy : ∀ r, m.below = some r → copy r = none) (hcopy : ∀ j, j ≠ b → copy' j = copy j)
    (hcopyb : copy' b = if copy b = some i then none else copy b) (hrefsb : refs' b = refs b - 1)
    (hrefs : ∀ j, j ≠ b → refs j + (if m.below = some j then 1 else 0) ≤ refs' j) :
    Wf L' copy' refs' next held readOnly := by
  obtain ⟨rank, hr, hbound⟩ := h.ranked
  have hother : ∀ j, j ≠ i → L' j = L j := by
    intro j hji
    by_cases hjb : j = b
    · rw [hjb, hb]
    · exact hp.other j hji hjb
  have hback : ∀ {j}, (L' j).isSome → (L j).isSome := hp.isSome_back (.inr hb)
  refine ⟨⟨rank, hp.ranked hr (.inr hb), fun j hj => hbound j (hback hj)⟩,
    fun j hj => h.fresh j (hback hj), hp.windowed h (.inr hb), fun j c hc => ?_,
    fun j n w hj hw hro => ?_, fun j hj => ?_, fun j hj => ?_⟩
  · have hc' : copy j = some c ∧ c ≠ i := by
      by_cases hjb : j = b
      · subst hjb
        rw [hcopyb] at hc
        split at hc
        next => cases hc
        next hne => exact ⟨hc, fun hci => hne (hci ▸ hc)⟩
      · rw [hcopy j hjb] at hc
        exact ⟨hc, hp.copy_ne h hc hjb⟩
    exact hp.copied h hc'.1 (hother j) hc'.2 (hother c hc'.2)
  · rcases hp.cases (.inr hb) hj with ⟨rfl, rfl⟩ | ⟨hji, hj'⟩
    · exact absurd hro (hp.not_written h hnocopy hw)
    · have hcw := h.alone j n w hj' hw hro
      by_cases hwb : w = b
      · subst hwb
        rw [hcopyb, if_neg, hcw]
        rw [hcw]
        exact fun hij => hji (Option.some.inj hij)
      · rw [hcopy w hwb, hcw]
  · have hle := h.refs j (hback hj)
    by_cases hjb : j = b
    · subst hjb
      -- the object itself no longer shadows it
      have hsub : Cow.shadowers L' next j ⊆ (Cow.shadowers L next j).erase i := by
        intro k hk
        rcases hp.shadowers (.inr hb) hk with ⟨-, hbelow⟩ | ⟨hki, hk'⟩
        · exact absurd rfl (h.below_ne hp.backing hbelow)
        · exact mem_erase.mpr ⟨hki, hk'⟩
      have hmem : i ∈ Cow.shadowers L next j :=
        mem_shadowers.mpr ⟨h.fresh i (hp.was ▸ rfl), l, hp.was, hp.below⟩
      have h1 := card_le_card hsub
      have h2 := card_erase_add_one hmem
      omega
    · have hrefs' := hrefs j hjb
      by_cases hr' : m.below = some j
      · have hsub : Cow.shadowers L' next j ⊆ insert i (Cow.shadowers L next j) := by
          intro k hk
          rcases hp.shadowers (.inr hb) hk with ⟨rfl, -⟩ | ⟨-, hk'⟩
          · exact mem_insert_self _ _
          · exact mem_insert_of_mem hk'
        rw [if_pos hr'] at hrefs'
        have h1 := card_le_card hsub
        have h2 := card_insert_le i (Cow.shadowers L next j)
        omega
      · have h1 : (Cow.shadowers L' next j).card ≤ _ := hp.card_le (.inr hb) hr'
        omega
  · refine hp.isSome (.inr hb) (fun hnone => ?_) (h.live j hj)
    cases hp.backing.symm.trans (hb.symm.trans hnone)

end

/-! ## New objects -/

structure Inserted (L L' : Layers V) (copy : Nat → Option Nat) (src next : Nat) (l l' : Layer V) : Prop where
  source : L src = some l
  is : L' next = some l'
  size : l'.size = l.size
  below : l'.below = some src
  offset : l'.offset = 0
  other : ∀ j, j ≠ next →
    L' j = (L j).map fun n => if copy src = some j then { n with below := some next } else n

section

variable (h : Wf L copy refs next held readOnly)
include h

theorem Wf.next_eq_none : L next = none := by
  by_contra hne
  exact Nat.lt_irrefl _ (h.fresh next (isSome_iff_ne_none.mpr hne))

theorem Wf.ne_next (hj : (L j).isSome) : j ≠ next :=
  Nat.ne_of_lt (h.fresh j hj)

theorem Wf.held_next : held next = 0 := by
  by_contra hne
  have hsome := h.live next (Nat.pos_of_ne_zero hne)
  rw [h.next_eq_none] at hsome
  cases hsome

end

structure Over (L L' : Layers V) (moved : Option Nat) (src next : Nat) (l l' : Layer V) : Prop where
  source : L src = some l
  is : L' next = some l'
  below : l'.below = some src
  window : l'.size + l'.offset ≤ l.size
  hung : ∀ c, moved = some c → ∃ p, L c = some p ∧ p.below = some src ∧ p.size + p.offset ≤ l'.size
  other : ∀ j, j ≠ next →
    L' j = (L j).map fun n => if moved = some j then { n with below := some next } else n

namespace Over

variable {moved : Option Nat} {src : Nat} (hi : Over L L' moved src next l l')
  (h : Wf L copy refs next held readOnly)
include hi h

theorem src_ne : src ≠ next := h.ne_next (by rw [hi.source]; rfl)

omit h in
theorem back {n' : Layer V} (hj : L' j = some n') (hjn : j ≠ next) :
    ∃ n, L j = some n ∧ n'.size = n.size ∧ n'.offset = n.offset ∧
      ((moved = some j ∧ n.below = some src ∧ n'.below = some next) ∨
        (moved ≠ some j ∧ n'.below = n.below)) := by
  rw [hi.other j hjn] at hj
  obtain ⟨n, hn, rfl⟩ := map_eq_some_iff.mp hj
  refine ⟨n, hn, ?_⟩
  by_cases hc : moved = some j
  · obtain ⟨p, hpj, hpb, _⟩ := hi.hung j hc
    cases hn.symm.trans hpj
    rw [if_pos hc]
    exact ⟨rfl, rfl, .inl ⟨hc, hpb, rfl⟩⟩
  · rw [if_neg hc]
    exact ⟨rfl, rfl, .inr ⟨hc, rfl⟩⟩

theorem isSome (hj : (L j).isSome) : (L' j).isSome := by
  rw [hi.other j (h.ne_next hj), isSome_map]
  exact hj

omit h in
theorem isSome_back (hj : (L' j).isSome) (hjn : j ≠ next) : (L j).isSome := by
  rwa [hi.other j hjn, isSome_map] at hj

theorem fresh (hj : (L' j).isSome) : j < next + 1 := by
  by_cases hjn : j = next
  · omega
  · have := h.fresh j (hi.isSome_back hj hjn)
    omega

omit hi in
theorem below_ne {k : Nat} {n : Layer V} (hn : L j = some n) (hk : n.below = some k) : k ≠ next :=
  h.ne_next (h.isSome_below hn hk)

theorem ranked : ∃ rank, Ranked L' rank ∧ ∀ i, (L' i).isSome → rank i < next + 1 := by
  obtain ⟨rank, hr, hbound⟩ := h.ranked
  refine ⟨fun j => if j = next then rank src + 1 else if rank src < rank j then rank j + 1 else rank j,
    ⟨fun {j n k} hj hk => ?_, fun {j n k} hj hk => ?_⟩, fun j hj => ?_⟩
  · by_cases hjn : j = next
    · subst hjn
      cases hi.is.symm.trans hj
      cases hi.below.symm.trans hk
      exact hi.isSome h (by rw [hi.source]; rfl)
    · obtain ⟨n0, hn0, _, _, ⟨_, _, hnb⟩ | ⟨_, hsame⟩⟩ := hi.back hj hjn
      · cases hnb.symm.trans hk
        rw [hi.is]
        rfl
      · exact hi.isSome h (hr.live hn0 (hsame.symm.trans hk))
  · by_cases hjn : j = next
    · subst hjn
      cases hi.is.symm.trans hj
      cases hi.below.symm.trans hk
      rw [if_pos rfl, if_neg (hi.src_ne h), if_neg (Nat.lt_irrefl _)]
      omega
    · rw [if_neg hjn]
      obtain ⟨n0, hn0, _, _, ⟨_, hold, hnb⟩ | ⟨_, hsame⟩⟩ := hi.back hj hjn
      · cases hnb.symm.trans hk
        have hlt := hr.lt hn0 hold
        rw [if_pos rfl, if_pos hlt]
        omega
      · have hk' := hsame.symm.trans hk
        have hlt := hr.lt hn0 hk'
        rw [if_neg (below_ne h hn0 hk')]
        split <;> split <;> omega
  · change (if j = next then rank src + 1 else if rank src < rank j then rank j + 1 else rank j) < next + 1
    by_cases hjn : j = next
    · have := hbound src (by rw [hi.source]; rfl)
      rw [if_pos hjn]
      omega
    · have := hbound j (hi.isSome_back hj hjn)
      rw [if_neg hjn]
      split <;> omega

theorem windowed : Windowed L' := by
  intro j n k p hj hk hp
  by_cases hjn : j = next
  · subst hjn
    cases hi.is.symm.trans hj
    cases hi.below.symm.trans hk
    obtain ⟨p0, hp0, hpsize, _⟩ := hi.back hp (hi.src_ne h)
    cases hi.source.symm.trans hp0
    rw [hpsize]
    exact hi.window
  · obtain ⟨n0, hn0, hnsize, hnoff, ⟨hc, hold, hnb⟩ | ⟨_, hsame⟩⟩ := hi.back hj hjn
    · cases hnb.symm.trans hk
      cases hi.is.symm.trans hp
      obtain ⟨p, hpj, _, hwin⟩ := hi.hung j hc
      cases hn0.symm.trans hpj
      rw [hnsize, hnoff]
      exact hwin
    · have hk' := hsame.symm.trans hk
      obtain ⟨p0, hp0, hpsize, _⟩ := hi.back hp (below_ne h hn0 hk')
      rw [hnsize, hnoff, hpsize]
      exact h.windowed hn0 hk' hp0

theorem shadowers_cases {k : Nat} (hk : k ∈ shadowers L' (next + 1) j) :
    (k = next ∧ j = src) ∨ (j = next ∧ moved = some k) ∨
      (k ∈ shadowers L next j ∧ (j = src → moved ≠ some k)) := by
  obtain ⟨hlt, n, hn, hnb⟩ := mem_shadowers.mp hk
  by_cases hkn : k = next
  · subst hkn
    cases hi.is.symm.trans hn
    exact .inl ⟨rfl, Option.some.inj (hnb.symm.trans hi.below)⟩
  · obtain ⟨n0, hn0, _, _, ⟨hc, _, hnb'⟩ | ⟨hne, hsame⟩⟩ := hi.back hn hkn
    · exact .inr (.inl ⟨Option.some.inj (hnb.symm.trans hnb'), hc⟩)
    · exact .inr (.inr ⟨mem_shadowers.mpr ⟨by omega, n0, hn0, hsame.symm.trans hnb⟩, fun _ => hne⟩)

theorem card_new : (shadowers L' (next + 1) next).card ≤ moved.toFinset.card := by
  refine card_le_card fun k hk => ?_
  rcases hi.shadowers_cases h hk with ⟨_, hsrc⟩ | ⟨_, hc⟩ | ⟨hk', _⟩
  · exact absurd hsrc.symm (hi.src_ne h)
  · exact mem_toFinset.mpr hc
  · obtain ⟨_, n, hn, hnb⟩ := mem_shadowers.mp hk'
    exact absurd rfl (below_ne h hn hnb)

theorem card_source :
    (shadowers L' (next + 1) src).card + moved.toFinset.card ≤ (shadowers L next src).card + 1 := by
  have hsub : shadowers L' (next + 1) src ⊆ insert next (shadowers L next src \ moved.toFinset) := by
    intro k hk
    rcases hi.shadowers_cases h hk with ⟨rfl, _⟩ | ⟨hsrc, _⟩ | ⟨hk', hne⟩
    · exact mem_insert_self _ _
    · exact absurd hsrc (hi.src_ne h)
    · refine mem_insert_of_mem (mem_sdiff.mpr ⟨hk', fun hc => ?_⟩)
      exact hne rfl (mem_toFinset.mp hc)
  have hold : moved.toFinset ⊆ shadowers L next src := by
    intro c hc
    obtain ⟨p, hp, hpb, _⟩ := hi.hung c (mem_toFinset.mp hc)
    exact mem_shadowers.mpr ⟨h.fresh c (hp ▸ rfl), p, hp, hpb⟩
  have h1 := card_le_card hsub
  have h2 := card_insert_le next (shadowers L next src \ moved.toFinset)
  have h3 := card_sdiff_add_card_eq_card hold
  omega

theorem card_other (hsrc : j ≠ src) (hnext : j ≠ next) :
    (shadowers L' (next + 1) j).card ≤ (shadowers L next j).card := by
  refine card_le_card fun k hk => ?_
  rcases hi.shadowers_cases h hk with ⟨_, hsrc'⟩ | ⟨hnext', _⟩ | ⟨hk', _⟩
  · exact absurd hsrc' hsrc
  · exact absurd hnext' hnext
  · exact hk'

end Over

namespace Inserted

variable {src : Nat} (hi : Inserted L L' copy src next l l') (h : Wf L copy refs next held readOnly)
include hi h

theorem toOver : Over L L' (copy src) src next l l' := by
  refine ⟨hi.source, hi.is, hi.below, by rw [hi.size, hi.offset, Nat.add_zero], fun c hc => ?_, hi.other⟩
  obtain ⟨n, p, hn, hp, hbelow, hoffset, hsize⟩ := h.copied src c hc
  cases hi.source.symm.trans hn
  exact ⟨p, hp, hbelow, by rw [hoffset, hsize, hi.size, Nat.add_zero]⟩

theorem wf (hcopy : ∀ j, j ≠ src → copy' j = copy j) (hcopysrc : copy' src = some next)
    (hrefsnew : 1 + (copy src).toFinset.card ≤ refs' next)
    (hrefssrc : refs src + 1 ≤ refs' src + (copy src).toFinset.card)
    (hrefs : ∀ j, j ≠ src → j ≠ next → refs j ≤ refs' j) :
    Wf L' copy' refs' (next + 1) (update held next (held next + 1))
      (update readOnly next true) := by
  have ho := hi.toOver h
  refine ⟨ho.ranked h, fun _ => ho.fresh h, ho.windowed h, fun j c hc => ?_, fun j n w hj hw hro => ?_,
    fun j hj => ?_, fun j hj => ?_⟩
  · by_cases hjs : j = src
    · subst hjs
      cases hcopysrc.symm.trans hc
      obtain ⟨n', hn'⟩ := isSome_iff_exists.mp (ho.isSome h (by rw [hi.source]; rfl))
      obtain ⟨n0, hn0, hnsize, _⟩ := ho.back hn' (ho.src_ne h)
      cases hi.source.symm.trans hn0
      exact ⟨n', l', hn', hi.is, hi.below, hi.offset, hi.size.trans hnsize.symm⟩
    · rw [hcopy j hjs] at hc
      obtain ⟨n, p, hn, hp, hpb, hpo, hps⟩ := h.copied j c hc
      have hcs : copy src ≠ some c := by
        intro hcs
        obtain ⟨_, p', _, hp', hpb', _⟩ := h.copied src c hcs
        cases hp.symm.trans hp'
        cases hpb.symm.trans hpb'
        exact hjs rfl
      obtain ⟨n', hn'⟩ := isSome_iff_exists.mp (ho.isSome h (by rw [hn]; rfl))
      obtain ⟨n0, hn0, hnsize, _⟩ := ho.back hn' (h.ne_next (by rw [hn]; rfl))
      cases hn.symm.trans hn0
      have hp' : L' c = some p := by
        rw [hi.other c (h.ne_next (by rw [hp]; rfl)), hp, map_some, if_neg hcs]
      exact ⟨n', p, hn', hp', hpb, hpo, hps.trans hnsize.symm⟩
  · by_cases hwn : w = next
    · subst hwn
      rw [update_self] at hro
      cases hro
    · rw [update_of_ne hwn] at hro
      by_cases hjn : j = next
      · subst hjn
        cases hi.is.symm.trans hj
        cases hi.below.symm.trans hw
        exact hcopysrc
      · obtain ⟨n0, hn0, _, _, ⟨_, _, hnb⟩ | ⟨hne, hsame⟩⟩ := ho.back hj hjn
        · cases hnb.symm.trans hw
          exact absurd rfl hwn
        · have hcw := h.alone j n0 w hn0 (hsame.symm.trans hw) hro
          have hws : w ≠ src := by
            rintro rfl
            exact hne hcw
          rw [hcopy w hws, hcw]
  · by_cases hjn : j = next
    · subst hjn
      have hcard := ho.card_new h
      rw [update_self, h.held_next]
      omega
    · have hle := h.refs j (ho.isSome_back hj hjn)
      rw [update_of_ne hjn]
      by_cases hjs : j = src
      · subst hjs
        have hcard := ho.card_source h
        omega
      · have hcard := ho.card_other h hjs hjn
        have hrefs' := hrefs j hjs hjn
        omega
  · by_cases hjn : j = next
    · rw [hjn, hi.is]
      rfl
    · rw [update_of_ne hjn] at hj
      exact ho.isSome h (h.live j hj)

end Inserted

theorem Wf.shadow (h : Wf L copy refs next held readOnly) {src : Nat} (hsrc : L src = some l)
    (hheld : 0 < held src) (hro : readOnly src = true) (hnew : L' next = some l')
    (hbelow : l'.below = some src) (hwin : l'.size + l'.offset ≤ l.size)
    (hother : ∀ j, j ≠ next → L' j = L j) (hcopynew : copy' next = none)
    (hcopy : ∀ j, j ≠ next → copy' j = copy j) (hrefsnew : 1 ≤ refs' next)
    (hrefs : ∀ j, j ≠ next → refs' j = refs j) :
    Wf L' copy' refs' (next + 1) (update (update held src (held src - 1)) next 1)
      (update readOnly next false) := by
  have hsn : src ≠ next := h.ne_next (by rw [hsrc]; rfl)
  have ho : Over L L' none src next l l' := by
    refine ⟨hsrc, hnew, hbelow, hwin, nofun, fun j hj => ?_⟩
    simp [hother j hj, map_id_fun', id]
  refine ⟨ho.ranked h, fun _ => ho.fresh h, ho.windowed h, fun j c hc => ?_, fun j n w hj hw hro' => ?_,
    fun j hj => ?_, fun j hj => ?_⟩
  · have hjn : j ≠ next := by
      rintro rfl
      cases hcopynew.symm.trans hc
    rw [hcopy j hjn] at hc
    obtain ⟨n, p, hn, hp, hrest⟩ := h.copied j c hc
    exact ⟨n, p, (hother j hjn).trans hn, (hother c (h.ne_next (by rw [hp]; rfl))).trans hp, hrest⟩
  · by_cases hjn : j = next
    · subst hjn
      cases hnew.symm.trans hj
      cases hbelow.symm.trans hw
      rw [update_of_ne hsn, hro] at hro'
      cases hro'
    · have hj' := (hother j hjn).symm.trans hj
      have hwn := Over.below_ne h hj' hw
      rw [update_of_ne hwn] at hro'
      rw [hcopy w hwn]
      exact h.alone j n w hj' hw hro'
  · by_cases hjn : j = next
    · subst hjn
      have hcard : _ ≤ 0 := ho.card_new h
      rw [update_self]
      omega
    · have hle := h.refs j (ho.isSome_back hj hjn)
      rw [update_of_ne hjn, hrefs j hjn]
      by_cases hjs : j = src
      · subst hjs
        have hcard : _ ≤ _ := ho.card_source h
        rw [update_self]
        omega
      · have hcard := ho.card_other h hjs hjn
        rw [update_of_ne hjs]
        omega
  · by_cases hjn : j = next
    · rw [hjn, hnew]
      rfl
    · rw [update_of_ne hjn] at hj
      refine ho.isSome h (h.live j ?_)
      by_cases hjs : j = src
      · exact hjs ▸ hheld
      · rwa [update_of_ne hjs] at hj

theorem Wf.reuse (h : Wf L copy refs next held readOnly) {c : Nat} (hc : (L c).isSome)
    (hrefs : refs' = update refs c (refs c + 1)) :
    Wf L copy refs' next (update held c (held c + 1)) (update readOnly c true) := by
  refine ⟨h.ranked, h.fresh, h.windowed, h.copied, fun j n w hj hw hro => ?_, fun j hj => ?_, fun j hj => ?_⟩
  · refine h.alone j n w hj hw ?_
    by_cases hwc : w = c
    · rw [hwc, update_self] at hro
      cases hro
    · rwa [update_of_ne hwc] at hro
  · have hle := h.refs j hj
    rw [hrefs]
    by_cases hjc : j = c
    · rw [hjc] at hle ⊢
      rw [update_self, update_self]
      omega
    · rwa [update_of_ne hjc, update_of_ne hjc]
  · by_cases hjc : j = c
    · exact hjc ▸ hc
    · rw [update_of_ne hjc] at hj
      exact h.live j hj

end Mach.Vm.Cow
