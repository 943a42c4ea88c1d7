import Mach.Intel.Pmap
import Mathlib.Data.Set.Card
import Mathlib.Tactic.Ring

/-!
# Entries, lists and counts

`Linked` says that the lists of the managed pages hold the valid entries, each once; `Counts`
that the counts of the maps are those of their entries, up to what a loop has not yet
subtracted. What an operation does is described by `entry`, the entries of all maps as one
function; both are then kept or not by what happens to one entry.
-/

namespace Mach.Intel.Pmap

open Lib Function List Option State

variable {M : Machine} {s s' : State} {m va : Nat} {e : Pte}

namespace State

/-! ## Entries -/

theorem setMap_same (s : State) (m : Nat) (map : Map) : (s.setMap m map).maps m = map := update_self ..

theorem setMap_ne {m' : Nat} (map : Map) (h : m' ≠ m) : (s.setMap m map).maps m' = s.maps m' :=
  update_of_ne h ..

theorem entry_congr (h : ∀ m, (s'.maps m).tables = (s.maps m).tables) : s'.entry = s.entry := by
  funext m va
  simp only [entry, pte, h]

theorem map_setMap {α : Type} {map : Map} (f : Map → α) (h : f map = f (s.maps m)) (m' : Nat) :
    f ((s.setMap m map).maps m') = f (s.maps m') := by
  by_cases hm : m' = m
  · rw [hm, setMap_same, h]
  · rw [setMap_ne map hm]

@[simp] theorem tables_addResident (s : State) (m : Nat) (n : Int) (m' : Nat) :
    ((s.addResident m n).maps m').tables = (s.maps m').tables := map_setMap _ (by rfl) m'

@[simp] theorem tables_addWired (s : State) (m : Nat) (n : Int) (m' : Nat) :
    ((s.addWired m n).maps m').tables = (s.maps m').tables := map_setMap _ (by rfl) m'

@[simp] theorem entry_addResident (s : State) (m : Nat) (n : Int) : (s.addResident m n).entry = s.entry :=
  entry_congr (tables_addResident s m n)

@[simp] theorem entry_addWired (s : State) (m : Nat) (n : Int) : (s.addWired m n).entry = s.entry :=
  entry_congr (tables_addWired s m n)

theorem tables_setPte_isSome (s : State) (m va : Nat) (e : Pte) (m' i : Nat) :
    (((s.setPte m va e).maps m').tables i).isSome = ((s.maps m').tables i).isSome := by
  by_cases hm : m' = m
  · subst hm
    rw [setPte, setMap_same]
    dsimp only
    by_cases hi : i = va / nptes
    · rw [hi, update_self, isSome_map]
    · rw [update_of_ne hi]
  · rw [setPte, setMap_ne _ hm]

theorem pte_isSome (s : State) (m va : Nat) : (s.pte m va).isSome = ((s.maps m).tables (va / nptes)).isSome :=
  isSome_map ..

theorem entry_eq_zero (h : (s.maps m).tables (va / nptes) = none) : s.entry m va = .zero := by
  rw [entry, pte, h]
  rfl

theorem isSome_of_entry_ne (h : s.entry m va ≠ .zero) : (s.pte m va).isSome := by
  rw [pte_isSome]
  by_contra hnone
  exact h (entry_eq_zero (not_isSome_iff_eq_none.mp hnone))

theorem entry_of_pte (h : s.pte m va = some e) : s.entry m va = e := by
  rw [entry, h]
  rfl

theorem eq_of_div_mod {a b : Nat} (hd : a / nptes = b / nptes) (hm : a % nptes = b % nptes) : a = b := by
  rw [← Nat.div_add_mod a nptes, ← Nat.div_add_mod b nptes, hd, hm]

theorem entry_setPte (h : (s.pte m va).isSome) (e : Pte) (m' va' : Nat) :
    (s.setPte m va e).entry m' va' = if m' = m ∧ va' = va then e else s.entry m' va' := by
  obtain ⟨table, htable⟩ := isSome_iff_exists.mp (pte_isSome s m va ▸ h)
  unfold entry pte setPte
  by_cases hm : m' = m
  · subst hm
    rw [setMap_same]
    dsimp only
    by_cases hd : va' / nptes = va / nptes
    · rw [hd, update_self, htable]
      by_cases hr : va' % nptes = va % nptes
      · rw [if_pos ⟨rfl, eq_of_div_mod hd hr⟩, hr]
        simp
      · have hne : ¬(m' = m' ∧ va' = va) := fun h => hr (by rw [h.2])
        rw [if_neg hne]
        simp only [map_some, update_of_ne hr]
    · have hne : ¬(m' = m' ∧ va' = va) := fun h => hd (by rw [h.2])
      rw [update_of_ne hd, if_neg hne]
  · rw [setMap_ne _ hm, if_neg fun h => hm h.1]

theorem counts_setPte (s : State) (m va : Nat) (e : Pte) (m' : Nat) :
    ((s.setPte m va e).maps m').residentCount = (s.maps m').residentCount ∧
      ((s.setPte m va e).maps m').wiredCount = (s.maps m').wiredCount :=
  ⟨map_setMap Map.residentCount (by rfl) m', map_setMap Map.wiredCount (by rfl) m'⟩

end State

/-! ## Lists -/

def State.pvList (s : State) (p : Nat) : List PvEntry := (s.pvHeadTable p).toList

theorem unlink_eq_erase (m va : Nat) : ∀ {l : List PvEntry}, ⟨m, va⟩ ∈ l →
    unlink m va l = some (l.erase ⟨m, va⟩)
  | [], h => by cases h
  | cur :: rest, h => by
    rw [unlink]
    by_cases hcur : cur = ⟨m, va⟩
    · rw [if_pos (by rw [hcur]; exact ⟨rfl, rfl⟩), hcur, erase_cons_head]
    · have hne : ¬(cur.va = va ∧ cur.pmap = m) := by
        rintro ⟨rfl, rfl⟩
        exact hcur rfl
      rw [if_neg hne, unlink_eq_erase m va ((mem_cons.mp h).resolve_left fun h => hcur h.symm),
        erase_cons_tail (by simpa using hcur)]
      rfl

theorem PvHead.remove_ok {h : PvHead} (hmem : ⟨m, va⟩ ∈ h.toList) :
    ∃ h' freed, h.remove m va = .ok (h', freed) ∧ h'.toList = h.toList.erase ⟨m, va⟩ := by
  unfold toList at hmem ⊢
  unfold remove
  cases hp : h.pmap with
  | none =>
    rw [hp] at hmem
    cases hmem
  | some pmap =>
    rw [hp] at hmem
    dsimp only at hmem ⊢
    by_cases hhead : h.va = va ∧ pmap = m
    · rw [if_pos hhead]
      have heq : (⟨pmap, h.va⟩ : PvEntry) = ⟨m, va⟩ := by rw [hhead.1, hhead.2]
      rw [heq, erase_cons_head]
      cases hnext : h.next with
      | nil | cons => exact ⟨_, _, rfl, rfl⟩
    · have hne : (⟨pmap, h.va⟩ : PvEntry) ≠ ⟨m, va⟩ := by
        intro heq
        cases heq
        exact hhead ⟨rfl, rfl⟩
      rw [if_neg hhead, unlink_eq_erase m va ((mem_cons.mp hmem).resolve_left fun h => hne h.symm),
        erase_cons_tail (by simpa using hne)]
      exact ⟨_, _, rfl, rfl⟩

def Maps (e : Pte) (p : Nat) : Prop := e.valid = true ∧ e.frame = p

instance (e : Pte) (p : Nat) : Decidable (Maps e p) := inferInstanceAs (Decidable (_ ∧ _))

def Lists (M : Machine) (s : State) : Prop :=
  ∀ p, M.validPage p → ∀ pv : PvEntry,
    (s.pvList p).count pv = if Maps (s.entry pv.pmap pv.va) p then 1 else 0

theorem Lists.congr (h : Lists M s) (hentry : s'.entry = s.entry)
    (hpv : s'.pvHeadTable = s.pvHeadTable) : Lists M s' := by
  unfold Lists State.pvList
  rw [hentry, hpv]
  exact h

theorem Lists.mem_iff (h : Lists M s) {p : Nat} (hp : M.validPage p) (pv : PvEntry) :
    pv ∈ s.pvList p ↔ Maps (s.entry pv.pmap pv.va) p := by
  rw [← count_pos_iff, h p hp pv]
  split
  next hmaps => exact ⟨fun _ => hmaps, fun _ => Nat.one_pos⟩
  next hmaps => exact ⟨fun h => absurd h (Nat.lt_irrefl 0), fun h => absurd h hmaps⟩

theorem Lists.nodup (h : Lists M s) {p : Nat} (hp : M.validPage p) : (s.pvList p).Nodup := by
  refine nodup_iff_count_le_one.mpr fun pv => ?_
  rw [h p hp pv]
  split <;> omega

/-- Every entry that is not zero is valid, and the list of a managed page has each of its
mappings once. -/
structure Linked (M : Machine) (s : State) : Prop where
  sound : ∀ m va, s.entry m va ≠ .zero → (s.entry m va).valid
  linked : ∀ p, M.validPage p → ∀ pv : PvEntry,
    (s.pvList p).count pv = if Maps (s.entry pv.pmap pv.va) p then 1 else 0

theorem Linked.congr (h : Linked M s) (hentry : s'.entry = s.entry)
    (hpv : s'.pvHeadTable = s.pvHeadTable) : Linked M s' := by
  refine ⟨?_, Lists.congr h.linked hentry hpv⟩
  rw [hentry]
  exact h.sound

/-! ## Counts -/

def Counted (n : Int) (p : Nat → Bool) : Prop :=
  {va | p va = true}.Finite ∧ n = ({va | p va = true}.ncard : Int)

theorem Counted.set {n : Int} {p q : Nat → Bool} (h : Counted n p) (va : Nat)
    (hother : ∀ va', va' ≠ va → q va' = p va') :
    Counted (n + (if q va then 1 else 0) - if p va then 1 else 0) q := by
  obtain ⟨hfin, rfl⟩ := h
  have hset : {va' | q va' = true} \ {va} = {va' | p va' = true} \ {va} := by
    ext va'
    by_cases hva : va' = va
    · simp [hva]
    · simp [hva, hother va' hva]
  have hfin' : {va' | q va' = true}.Finite :=
    (((hfin.sdiff).union (Set.finite_singleton va))).subset fun va' hva' => by
      by_cases hva : va' = va
      · exact .inr hva
      · exact .inl ⟨by rwa [Set.mem_ofPred_eq, ← hother va' hva], hva⟩
  refine ⟨hfin', ?_⟩
  -- the two sets differ by the one place
  have hcard : ∀ {q : Nat → Bool}, {va' | q va' = true}.Finite →
      ({va' | q va' = true}.ncard : Int) = ({va' | q va' = true} \ {va}).ncard + if q va then 1 else 0 := by
    intro q hq
    split
    next hva =>
      rw [← Set.ncard_sdiff_singleton_add_one (show va ∈ {va' | q va' = true} from hva) hq]
      push_cast
      rfl
    next hva =>
      rw [Set.sdiff_singleton_eq_self (by simpa using hva)]
      omega
  rw [hcard hfin, hcard hfin', hset]
  omega

/-- The counts of the maps, of which `r` and `u` are still to be taken from those of `m`. -/
structure Counts (s : State) (m : Nat) (r u : Int) : Prop where
  resident : ∀ m', Counted ((s.maps m').residentCount - if m' = m then r else 0) fun va => (s.entry m' va).valid
  wired : ∀ m', Counted ((s.maps m').wiredCount - if m' = m then u else 0) fun va => (s.entry m' va).wired

theorem Counts.any (h : Counts s m 0 0) (m' : Nat) : Counts s m' 0 0 := by
  refine ⟨fun m'' => ?_, fun m'' => ?_⟩
  · have := h.resident m''
    rwa [ite_self] at this ⊢
  · have := h.wired m''
    rwa [ite_self] at this ⊢

/-- An entry is replaced by `e`, and the counts of its map change by `dr` and `dw`. -/
structure Changes (s s' : State) (m va : Nat) (e : Pte) (dr dw : Int) : Prop where
  entry : ∀ m' va', s'.entry m' va' = if m' = m ∧ va' = va then e else s.entry m' va'
  resident : ∀ m', (s'.maps m').residentCount = (s.maps m').residentCount + if m' = m then dr else 0
  wired : ∀ m', (s'.maps m').wiredCount = (s.maps m').wiredCount + if m' = m then dw else 0
  present : ∀ m' i, ((s'.maps m').tables i).isSome = ((s.maps m').tables i).isSome

theorem Changes.refl (s : State) (m va : Nat) : Changes s s m va (s.entry m va) 0 0 := by
  refine ⟨fun m' va' => ?_, fun m' => ?_, fun m' => ?_, fun _ _ => rfl⟩
  · split
    next hsame => rw [hsame.1, hsame.2]
    next => rfl
  · rw [ite_self, add_zero]
  · rw [ite_self, add_zero]

variable {dr dw : Int}

theorem Changes.setPte {e0 : Pte} (h : Changes s s' m va e0 dr dw) (hpte : (s'.pte m va).isSome)
    (e : Pte) : Changes s (s'.setPte m va e) m va e dr dw := by
  refine ⟨fun m' va' => ?_, fun m' => ?_, fun m' => ?_, fun m' i => ?_⟩
  · rw [entry_setPte hpte, h.entry]
    split <;> rfl
  · rw [(counts_setPte ..).1, h.resident]
  · rw [(counts_setPte ..).2, h.wired]
  · rw [tables_setPte_isSome, h.present]

section

variable (h : Changes s s' m va e dr dw)
include h

theorem Changes.pte_isSome : (s'.pte m va).isSome = (s.pte m va).isSome := by
  rw [State.pte_isSome, State.pte_isSome, h.present]

theorem Changes.entry_same : s'.entry m va = e := by
  rw [h.entry, if_pos ⟨rfl, rfl⟩]

theorem Changes.entry_ne {m' va' : Nat} (hne : ¬(m' = m ∧ va' = va)) :
    s'.entry m' va' = s.entry m' va' := by
  rw [h.entry, if_neg hne]

theorem Changes.addResident (n : Int) : Changes s (s'.addResident m n) m va e (dr + n) dw := by
  refine ⟨fun m' va' => ?_, fun m' => ?_, fun m' => ?_, fun m' i => ?_⟩
  · rw [entry_addResident, h.entry]
  · by_cases hm : m' = m
    · rw [hm, State.addResident, setMap_same, h.resident, if_pos rfl, if_pos rfl, add_assoc]
    · rw [State.addResident, setMap_ne _ hm, h.resident, if_neg hm, if_neg hm]
  · rw [← h.wired]
    exact map_setMap Map.wiredCount (by rfl) m'
  · rw [tables_addResident, h.present]

theorem Changes.addWired (n : Int) : Changes s (s'.addWired m n) m va e dr (dw + n) := by
  refine ⟨fun m' va' => ?_, fun m' => ?_, fun m' => ?_, fun m' i => ?_⟩
  · rw [entry_addWired, h.entry]
  · rw [← h.resident]
    exact map_setMap Map.residentCount (by rfl) m'
  · by_cases hm : m' = m
    · rw [hm, State.addWired, setMap_same, h.wired, if_pos rfl, if_pos rfl, add_assoc]
    · rw [State.addWired, setMap_ne _ hm, h.wired, if_neg hm, if_neg hm]
  · rw [tables_addWired, h.present]

theorem Changes.counted {f : Pte → Bool} {n n' : Nat → Int} {d r : Int}
    (hn : ∀ m', n' m' = n m' + if m' = m then d else 0) (hc : ∀ m',
      Counted (n m' - if m' = m then r else 0) fun va => f (s.entry m' va)) (m' : Nat) :
    Counted (n' m' - if m' = m then r + d - (if f e then 1 else 0) + (if f (s.entry m va) then 1 else 0)
      else 0) fun va => f (s'.entry m' va) := by
  have hold := hc m'
  rw [hn]
  by_cases hm : m' = m
  · subst hm
    have hset := hold.set (q := fun va' => f (s'.entry m' va')) va fun va' hva => by
      rw [h.entry_ne fun h => hva h.2]
    rw [h.entry_same, if_pos rfl] at hset
    rw [if_pos rfl, if_pos rfl]
    convert hset using 1
    ring
  · rw [if_neg hm] at hold
    rw [if_neg hm, if_neg hm]
    simpa [h.entry_ne fun h => hm h.1] using hold

theorem Changes.counts {r u : Int} (hc : Counts s m r u) :
    Counts s' m (r + dr - (if e.valid then 1 else 0) + if (s.entry m va).valid then 1 else 0)
      (u + dw - (if e.wired then 1 else 0) + if (s.entry m va).wired then 1 else 0) :=
  ⟨h.counted h.resident hc.resident, h.counted h.wired hc.wired⟩

theorem Changes.sound (hs : ∀ m va, s.entry m va ≠ .zero → (s.entry m va).valid)
    (he : e ≠ .zero → e.valid) (m' va' : Nat) (hz : s'.entry m' va' ≠ .zero) : (s'.entry m' va').valid := by
  by_cases hsame : m' = m ∧ va' = va
  · rw [hsame.1, hsame.2, h.entry_same] at hz ⊢
    exact he hz
  · rw [h.entry_ne hsame] at hz ⊢
    exact hs m' va' hz

end

/-- **What holds between calls.** -/
structure Inv (M : Machine) (s : State) : Prop where
  linked : Linked M s
  counts : Counts s M.kernelPmap 0 0

theorem Inv.congr (h : Inv M s) (hentry : s'.entry = s.entry) (hpv : s'.pvHeadTable = s.pvHeadTable)
    (hcounts : ∀ m', (s'.maps m').residentCount = (s.maps m').residentCount ∧
      (s'.maps m').wiredCount = (s.maps m').wiredCount) : Inv M s' := by
  refine ⟨h.linked.congr hentry hpv, ⟨fun m' => ?_, fun m' => ?_⟩⟩
  · rw [hentry, (hcounts m').1]
    exact h.counts.resident m'
  · rw [hentry, (hcounts m').2]
    exact h.counts.wired m'

theorem PvEntry.eq_mk {pv : PvEntry} (h : pv.pmap = m ∧ pv.va = va) : pv = ⟨m, va⟩ := by
  rw [← h.1, ← h.2]

end Mach.Intel.Pmap
