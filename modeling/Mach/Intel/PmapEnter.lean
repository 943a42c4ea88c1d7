import Mach.Intel.PmapProtect

/-!
# Entering a mapping

A pass of `pmap_enter` keeps the invariant whether it ends with the page entered or for want
of an entry for the list: in the latter case the old mapping is gone, list and counts
included. A pass that was given an entry does not end so.
-/

namespace Mach.Intel.Pmap

open Lib Function List State

variable {M : Machine} {s s' : State} {m v pa : Nat}

theorem setTable_zero {i : Nat} {t : Option (Nat → Pte)} (hold : ∀ va, va / nptes = i → s.entry m va = .zero)
    (ht : ∀ table, t = some table → ∀ j, table j = .zero)
    (heq : s' = s.setMap m { s.maps m with tables := update (s.maps m).tables i t }) :
    s'.entry = s.entry ∧ ∀ m', (s'.maps m').residentCount = (s.maps m').residentCount ∧
      (s'.maps m').wiredCount = (s.maps m').wiredCount := by
  subst heq
  refine ⟨?_, fun m' => ⟨map_setMap Map.residentCount (by rfl) m', map_setMap Map.wiredCount (by rfl) m'⟩⟩
  · funext m' va'
    by_cases hm : m' = m
    · subst hm
      rw [State.entry, State.pte, setMap_same]
      dsimp only
      by_cases hd : va' / nptes = i
      · rw [hold va' hd, hd, update_self]
        cases t with
        | none => rfl
        | some table => exact ht table rfl _
      · rw [update_of_ne hd]
        rfl
    · rw [State.entry, State.pte, setMap_ne _ hm]
      rfl

theorem expand_ok (heq : s.expand M m v = .ok s') :
    (s'.pte m v).isSome ∧ s'.entry = s.entry ∧ s'.pvHeadTable = s.pvHeadTable ∧
      s'.attributes = s.attributes ∧ ∀ m', (s'.maps m').residentCount = (s.maps m').residentCount ∧
        (s'.maps m').wiredCount = (s.maps m').wiredCount := by
  unfold State.expand at heq
  split at heq
  next table htable =>
    cases heq
    refine ⟨?_, rfl, rfl, rfl, fun _ => ⟨rfl, rfl⟩⟩
    rw [State.pte_isSome, htable]
    rfl
  next htable =>
    split at heq
    · cases heq
    cases heq
    have hold : ∀ va, va / nptes = v / nptes → s.entry m va = .zero := fun va hd => entry_eq_zero (hd ▸ htable)
    obtain ⟨hentry, hcounts⟩ := setTable_zero hold (t := some fun _ => .zero) (fun _ h _ => by cases h; rfl) rfl
    refine ⟨?_, hentry, rfl, rfl, hcounts⟩
    rw [State.pte_isSome, setMap_same]
    dsimp only
    rw [update_self]
    rfl

theorem expand_good (h : Inv M s) (m v : Nat) :
    Good (s.expand M m v) fun s' => Inv M s' ∧ (s'.pte m v).isSome ∧ s'.entry = s.entry := by
  cases heq : s.expand M m v with
  | error p =>
    -- only the kernel's page tables cannot be expanded
    unfold State.expand at heq
    split at heq
    · cases heq
    split at heq
    next =>
      cases heq
      rfl
    next => cases heq
  | ok s' =>
    obtain ⟨hpte, hentry, hpv, -, hcounts⟩ := expand_ok heq
    exact ⟨h.congr hentry hpv hcounts, hpte, hentry⟩

theorem enterPv_some {pvE left : Bool} (heq : s.enterPv M m v pa pvE = some (left, s')) :
    s'.maps = s.maps ∧ s'.attributes = s.attributes ∧ ∀ p, M.validPage p → ∀ pv,
      (s'.pvList p).count pv = (s.pvList p).count pv + if p = pa ∧ pv = ⟨m, v⟩ then 1 else 0 := by
  -- only the list of the page changes, by the one entry
  have hset : ∀ {h : PvHead} (free : Nat), (∀ pv, h.toList.count pv =
      (s.pvList pa).count pv + if pv = ⟨m, v⟩ then 1 else 0) → ∀ p pv,
      ((({ s.setPv pa h with pvFreeList := free }) : State).pvList p).count pv =
        (s.pvList p).count pv + if p = pa ∧ pv = ⟨m, v⟩ then 1 else 0 := by
    intro h free hcount p pv
    change (update s.pvHeadTable pa h p).toList.count pv = _
    by_cases hp : p = pa
    · subst hp
      rw [update_self, hcount]
      simp only [true_and]
    · rw [update_of_ne hp, if_neg fun h => hp h.1]
      rfl
  unfold State.enterPv at heq
  split at heq
  next hp =>
    dsimp only at heq
    cases hhead : (s.pvHeadTable pa).pmap with
    | none =>
      rw [hhead] at heq
      cases heq
      refine ⟨rfl, rfl, fun p _ => hset s.pvFreeList (fun pv => ?_) p⟩
      rw [State.pvList, PvHead.toList, PvHead.toList, hhead, count_nil, Nat.zero_add]
      rw [count_singleton]
      simp only [beq_iff_eq, eq_comm (a := pv)]
    | some pmap =>
      rw [hhead] at heq
      dsimp only at heq
      have hcount : ∀ pv, (PvHead.toList ⟨some pmap, (s.pvHeadTable pa).va,
          ⟨m, v⟩ :: (s.pvHeadTable pa).next⟩).count pv =
            (s.pvList pa).count pv + if pv = ⟨m, v⟩ then 1 else 0 := by
        intro pv
        rw [State.pvList, PvHead.toList, PvHead.toList, hhead]
        rw [count_cons, count_cons, count_cons]
        simp only [beq_iff_eq, eq_comm (b := pv)]
        omega
      split at heq
      next =>
        cases heq
        exact ⟨rfl, rfl, fun p _ => hset s.pvFreeList hcount p⟩
      next =>
        split at heq
        next =>
          cases heq
          exact ⟨rfl, rfl, fun p _ => hset _ hcount p⟩
        next => cases heq
  next hp =>
    cases heq
    refine ⟨rfl, rfl, fun p hp' pv => ?_⟩
    rw [if_neg, Nat.add_zero]
    rintro ⟨rfl, _⟩
    exact hp hp'

theorem Lists.entered {pvE left : Bool} (wired : Bool) (hl : Lists M s) (hpte : (s.pte m v).isSome)
    (hzero : s.entry m v = .zero) (heq : s.enterPv M m v pa pvE = some (left, s')) (prot : VmProt) :
    ∃ s1, s1 = ((if wired then (s'.addResident m 1).addWired m 1 else s'.addResident m 1)).setPte m v
        (State.template M m pa prot wired) ∧ Lists M s1 ∧ s1.attributes = s.attributes ∧
      Changes s s1 m v (State.template M m pa prot wired) 1 (if wired then 1 else 0) := by
  obtain ⟨hmaps, hattr, hlists⟩ := enterPv_some heq
  have h0 : Changes s s' m v (s.entry m v) 0 0 := by
    have h := Changes.refl s m v
    have hentry : s'.entry = s.entry := entry_congr fun m => by rw [hmaps]
    refine ⟨?_, ?_, ?_, ?_⟩
    · rw [hentry]
      exact h.entry
    all_goals rw [hmaps]
    · exact h.resident
    · exact h.wired
    · exact h.present
  generalize hs1 : (if wired then (s'.addResident m 1).addWired m 1 else s'.addResident m 1) = s1
  obtain ⟨hpv, hattr1, h1⟩ : s1.pvHeadTable = s'.pvHeadTable ∧ s1.attributes = s'.attributes ∧
      Changes s s1 m v (s.entry m v) 1 (if wired then 1 else 0) := by
    rw [← hs1]
    split
    · exact ⟨rfl, rfl, (h0.addResident 1).addWired 1⟩
    · exact ⟨rfl, rfl, h0.addResident 1⟩
  have h2 := h1.setPte (by rw [h1.pte_isSome, hpte]) (State.template M m pa prot wired)
  refine ⟨_, rfl, fun p hp pv => ?_, hattr1.trans hattr, h2⟩
  change (s1.pvHeadTable p).toList.count pv = _
  rw [hpv]
  refine (hlists p hp pv).trans ?_
  rw [hl p hp pv]
  by_cases hsame : pv.pmap = m ∧ pv.va = v
  · obtain rfl := PvEntry.eq_mk hsame
    rw [h2.entry_same, hzero, if_neg fun h => Bool.false_ne_true h.1, Nat.zero_add]
    refine if_congr ⟨fun h => ⟨rfl, h.1.symm⟩, fun h => ⟨h.2.symm, rfl⟩⟩ rfl rfl
  · have hne : ¬(p = pa ∧ pv = ⟨m, v⟩) := fun h => hsame (by rw [h.2]; exact ⟨rfl, rfl⟩)
    rw [h2.entry_ne hsame, if_neg hne, Nat.add_zero]

theorem entered {wired pvE left : Bool} (h : Inv M s) (hpte : (s.pte m v).isSome) (hzero : s.entry m v = .zero)
    (heq : s.enterPv M m v pa pvE = some (left, s')) (prot : VmProt) :
    Inv M (((if wired then (s'.addResident m 1).addWired m 1 else s'.addResident m 1)).setPte m v
      (State.template M m pa prot wired)) := by
  obtain ⟨s1, hs1, hlists, -, hch⟩ := Lists.entered wired h.linked.linked hpte hzero heq prot
  rw [← hs1]
  refine ⟨⟨hch.sound h.linked.sound fun _ => rfl, hlists⟩, Counts.any (m := m) ?_ _⟩
  convert hch.counts (h.counts.any m) using 1
  · rw [hzero]
    rfl
  · rw [hzero]
    change (0 : Int) = 0 + (if wired then 1 else 0) - (if wired = true then 1 else 0) + 0
    ring

theorem Inv.pvFree (h : Inv M s) (n : Nat) : Inv M (s.pvFree n) := h.congr rfl rfl fun _ => ⟨rfl, rfl⟩

theorem rewired (s : State) (m v : Nat) (wired : Bool) :
    ∃ s1, s1 = (if (wired && !(s.entry m v).wired) = true then s.addWired m 1
        else if (!wired && (s.entry m v).wired) = true then s.addWired m (-1) else s) ∧
      s1.pvHeadTable = s.pvHeadTable ∧ s1.attributes = s.attributes ∧
      Changes s s1 m v (s.entry m v) 0 ((if wired then 1 else 0) - if (s.entry m v).wired then 1 else 0) := by
  have hrefl := Changes.refl s m v
  cases wired <;> cases (s.entry m v).wired
  · exact ⟨_, rfl, rfl, rfl, hrefl⟩
  · exact ⟨_, rfl, rfl, rfl, hrefl.addWired (-1)⟩
  · exact ⟨_, rfl, rfl, rfl, hrefl.addWired 1⟩
  · exact ⟨_, rfl, rfl, rfl, hrefl⟩

theorem Edits.cleared_one (h : Edits cleared m v (v + 1) s s') (hpte : (s.pte m v).isSome) :
    (s'.pte m v).isSome ∧ s'.entry m v = .zero := by
  constructor
  · rw [State.pte_isSome, h.present, ← State.pte_isSome]
    exact hpte
  · rw [h.entry, if_pos (by omega)]
    rfl

theorem enter_good (h : Inv M s) (m v pa : Nat) (prot : VmProt) (wired pvE : Bool) :
    Good (s.enter M m v pa prot wired pvE) fun r => Inv M r.2 ∧ (pvE = true → r.1 = true) := by
  unfold State.enter
  split
  next => rfl
  next =>
    have hexpand := expand_good h m v
    split
    next p heq => exact hexpand.error heq
    next s1 heq =>
      obtain ⟨h1, hpte, _⟩ := hexpand.ok heq
      dsimp only
      -- `pv_e` is freed when it was not used
      have hfree : ∀ {b : Bool} {s : State}, Inv M s → Inv M (if b then s.pvFree 1 else s) := by
        intro b s h
        split
        · exact h.pvFree 1
        · exact h
      split
      next hsame =>
        have hv := h1.linked.sound m v hsame.1
        obtain ⟨s2, hs2, hpv, -, hch⟩ := rewired s1 m v wired
        rw [← hs2]
        have hset := hch.setPte (by rw [hch.pte_isSome, hpte])
          { State.template M m pa prot wired with modified := (s1.entry m v).modified }
        exact ⟨hfree (h1.keep hset hpv hv rfl hsame.2.symm rfl), fun _ => rfl⟩
      next hsame =>
        -- the old mapping is removed
        have hremoved : Good (if s1.entry m v ≠ .zero then s1.removeRange M m v 1 else .ok s1)
            fun s2 => Inv M s2 ∧ (s2.pte m v).isSome ∧ s2.entry m v = .zero := by
          split
          next => exact (removeRange_good h1 m v 1).mono fun s2 h2 => ⟨h2.1, h2.2.cleared_one hpte⟩
          next hz => exact ⟨h1, hpte, not_not.mp hz⟩
        split
        next p heq2 => exact hremoved.error heq2
        next s2 heq2 =>
          obtain ⟨h2, hpte2, hzero⟩ := hremoved.ok heq2
          split
          next hshort =>
            refine ⟨h2, fun hpvE => ?_⟩
            -- there is no shortage for one who has an entry
            subst hpvE
            unfold State.enterPv at hshort
            dsimp only at hshort
            split at hshort
            next => split at hshort <;> cases hshort
            next => cases hshort
          next left s3 hlist => exact ⟨hfree (entered h2 hpte2 hzero hlist prot), fun _ => rfl⟩

end Mach.Intel.Pmap
