import Mach.Intel.PmapInv

/-!
# Removing ranges of mappings

Under the invariant `pmap_remove_range` finds every mapping in its list, so that it can only
panic for what the caller has asked. `Edits` says what a call has done to the entries of one
range; `overTables` puts together what was done in each page table.
-/

namespace Mach.Intel.Pmap

open Lib State

variable {M : Machine} {s s' : State} {m va : Nat} {e : Pte}

def Panic.ofCaller : Panic → Bool
  | .physicalMemoryArea | .expandKernel | .pteMissing => true
  | _ => false

def Good {α : Type} (r : Except Panic α) (Q : α → Prop) : Prop :=
  match r with
  | .ok a => Q a
  | .error p => p.ofCaller = true

theorem Good.mono {α : Type} {r : Except Panic α} {Q Q' : α → Prop} (h : Good r Q) (hQ : ∀ a, Q a → Q' a) :
    Good r Q' := by
  cases r with
  | ok a => exact hQ a h
  | error p => exact h

theorem Good.error {α : Type} {r : Except Panic α} {Q : α → Prop} {p : Panic} (h : Good r Q)
    (heq : r = .error p) : p.ofCaller = true := by
  rwa [heq] at h

theorem Good.ok {α : Type} {r : Except Panic α} {Q : α → Prop} {a : α} (h : Good r Q) (heq : r = .ok a) :
    Q a := by
  rwa [heq] at h

/-! ## Entries of a range -/

/-- The entries of the range from `b` to `e` became `g` of what they were; no page table
came or went. -/
structure Edits (g : Pte → Pte) (m b e : Nat) (s s' : State) : Prop where
  entry : ∀ m' va', s'.entry m' va' = if m' = m ∧ b ≤ va' ∧ va' < e then g (s.entry m' va') else s.entry m' va'
  present : ∀ m' i, ((s'.maps m').tables i).isSome = ((s.maps m').tables i).isSome

variable {g : Pte → Pte} {b l : Nat}

theorem Edits.refl (g : Pte → Pte) (m b : Nat) (s : State) : Edits g m b b s s :=
  ⟨fun _ _ => by rw [if_neg (by omega)], fun _ _ => rfl⟩

theorem Edits.of_zero (hg : g .zero = .zero) {e : Nat} (h : ∀ va, b ≤ va → va < e → s.entry m va = .zero) :
    Edits g m b e s s := by
  refine ⟨fun m' va' => ?_, fun _ _ => rfl⟩
  split
  next hin => rw [hin.1, h va' hin.2.1 hin.2.2, hg]
  next => rfl

theorem Edits.trans {e : Nat} {s1 s2 s3 : State} (h : Edits g m b l s1 s2) (h' : Edits g m l e s2 s3)
    (hbl : b ≤ l) (hle : l ≤ e) : Edits g m b e s1 s3 := by
  refine ⟨fun m' va' => ?_, fun m' i => (h'.present m' i).trans (h.present m' i)⟩
  rw [h'.entry, h.entry]
  by_cases hm : m' = m
  · by_cases h1 : va' < l
    · rw [if_neg (by omega)]
      by_cases h2 : b ≤ va'
      · rw [if_pos (by omega), if_pos (by omega)]
      · rw [if_neg (by omega), if_neg (by omega)]
    · rw [if_neg (show ¬(m' = m ∧ b ≤ va' ∧ va' < l) by omega)]
      by_cases h2 : va' < e
      · rw [if_pos (by omega), if_pos (by omega)]
      · rw [if_neg (by omega), if_neg (by omega)]
  · rw [if_neg (by omega), if_neg (by omega), if_neg (by omega)]

theorem Changes.edits {dr dw : Int} (h : Changes s s' m va e dr dw) (he : e = g (s.entry m va)) :
    Edits g m va (va + 1) s s' := by
  refine ⟨fun m' va' => ?_, h.present⟩
  rw [h.entry]
  by_cases hsame : m' = m ∧ va' = va
  · rw [if_pos hsame, if_pos (by omega), he, hsame.1, hsame.2]
  · rw [if_neg hsame, if_neg (by omega)]

/-! ## One entry -/

namespace State

theorem changes_setPte (h : (s.pte m va).isSome) (e : Pte) : Changes s (s.setPte m va e) m va e 0 0 :=
  ⟨entry_setPte h e, fun m' => by rw [(counts_setPte ..).1, ite_self, add_zero],
    fun m' => by rw [(counts_setPte ..).2, ite_self, add_zero], tables_setPte_isSome s m va e⟩

end State

theorem not_maps_zero (p : Nat) : ¬Maps .zero p := fun h => Bool.false_ne_true h.1

theorem State.isSome_of_valid (h : (s.entry m va).valid = true) : (s.pte m va).isSome := by
  refine isSome_of_entry_ne fun h0 => ?_
  rw [h0] at h
  cases h

theorem removeEntry_lists (hl : Lists M s) (hv : (s.entry m va).valid) :
    ∃ s', s.removeEntry M m va (s.entry m va) = .ok s' ∧ Lists M s' ∧ Changes s s' m va .zero 0 0 ∧
      s'.attributes = if M.validPage (s.entry m va).frame then (s.collectBits (s.entry m va)).attributes
        else s.attributes := by
  have hpte := isSome_of_valid hv
  have hchanges : Changes s ((s.collectBits (s.entry m va)).setPte m va .zero) m va .zero 0 0 := by
    have h := changes_setPte hpte .zero
    exact ⟨h.entry, h.resident, h.wired, h.present⟩
  unfold State.removeEntry
  split
  next hp =>
    have hmem : (⟨m, va⟩ : PvEntry) ∈ s.pvList (s.entry m va).frame := (hl.mem_iff hp _).mpr ⟨hv, rfl⟩
    obtain ⟨h', freed, hremove, herase⟩ := PvHead.remove_ok hmem
    have hremove' : (((s.collectBits (s.entry m va)).setPte m va .zero).pvHeadTable
        (s.entry m va).frame).remove m va = .ok (h', freed) := hremove
    dsimp only
    rw [hremove']
    refine ⟨_, rfl, fun p hp' pv => ?_, ⟨hchanges.entry, hchanges.resident, hchanges.wired, hchanges.present⟩,
      rfl⟩
    change (Function.update s.pvHeadTable _ h' p).toList.count pv =
      if Maps (((s.collectBits (s.entry m va)).setPte m va .zero).entry pv.pmap pv.va) p then 1 else 0
    by_cases hpf : p = (s.entry m va).frame
    · subst hpf
      have hlist : h'.toList = (s.pvList (s.entry m va).frame).erase ⟨m, va⟩ := herase
      rw [Function.update_self, hlist]
      by_cases hpv : pv = ⟨m, va⟩
      · subst hpv
        rw [List.count_erase_self, hl _ hp, hchanges.entry_same, if_pos ⟨hv, rfl⟩, if_neg (not_maps_zero _)]
      · rw [List.count_erase_of_ne hpv, hl _ hp, hchanges.entry_ne]
        rintro ⟨h1, h2⟩
        exact hpv (by rw [← h1, ← h2])
    · rw [Function.update_of_ne hpf]
      refine (hl p hp' pv).trans ?_
      by_cases hpv : pv.pmap = m ∧ pv.va = va
      · rw [hpv.1, hpv.2, hchanges.entry_same, if_neg (not_maps_zero p), if_neg fun h => hpf h.2.symm]
      · rw [hchanges.entry_ne hpv]
  next hp =>
    have hch : Changes s (s.setPte m va .zero) m va .zero 0 0 := changes_setPte hpte .zero
    refine ⟨_, rfl, fun p hp' pv => (hl p hp' pv).trans ?_, hch, rfl⟩
    by_cases hpv : pv.pmap = m ∧ pv.va = va
    · rw [hpv.1, hpv.2, hch.entry_same, if_neg (not_maps_zero p), if_neg]
      rintro ⟨_, rfl⟩
      exact hp hp'
    · rw [hch.entry_ne hpv]

theorem removeEntry_ok (hl : Linked M s) (hv : (s.entry m va).valid) :
    ∃ s', s.removeEntry M m va (s.entry m va) = .ok s' ∧ Linked M s' ∧ Changes s s' m va .zero 0 0 := by
  obtain ⟨s', heq, hlists, hch, -⟩ := removeEntry_lists hl.linked hv
  exact ⟨s', heq, ⟨hch.sound hl.sound (absurd rfl), hlists⟩, hch⟩

/-! ## Loops -/

def cleared (_ : Pte) : Pte := .zero

theorem removeLoop_ok : ∀ {n va removed unwired : Nat} {s : State}, Linked M s → Counts s m removed unwired →
    ∃ removed' unwired' s', State.removeLoop M m n va removed unwired s = .ok (removed', unwired', s') ∧
      Linked M s' ∧ Counts s' m (removed' : Nat) (unwired' : Nat) ∧ Edits cleared m va (va + n) s s' ∧
      ∀ m', (s'.maps m').residentCount = (s.maps m').residentCount ∧
        (s'.maps m').wiredCount = (s.maps m').wiredCount
  | 0, va, removed, unwired, s, hl, hc =>
    ⟨removed, unwired, s, rfl, hl, hc, Edits.refl _ m va s, fun _ => ⟨rfl, rfl⟩⟩
  | n + 1, va, removed, unwired, s, hl, hc => by
    rw [State.removeLoop]
    by_cases hzero : s.entry m va = .zero
    · rw [if_pos hzero]
      obtain ⟨r', u', s', heq, hl', hc', hedits, hcounts⟩ := @removeLoop_ok n (va + 1) _ _ _ hl hc
      have hone : Edits cleared m va (va + 1) s s :=
        Edits.of_zero rfl fun va' h1 h2 => (show va' = va by omega) ▸ hzero
      refine ⟨r', u', s', heq, hl', hc', ?_, hcounts⟩
      rw [show va + (n + 1) = va + 1 + n by omega]
      exact hone.trans hedits (by omega) (by omega)
    · have hv := hl.sound m va hzero
      obtain ⟨s1, heq1, hl1, hch⟩ := removeEntry_ok hl hv
      have hc1 := hch.counts hc
      rw [if_neg hzero, if_pos hv, heq1]
      -- the counts of the loop go up with what was removed
      have hcounts : Counts s1 m ((removed + 1 : Nat) : Int)
          ((if (s.entry m va).wired then unwired + 1 else unwired : Nat) : Int) := by
        convert hc1 using 1
        · rw [if_pos hv, if_neg (show ¬Pte.zero.valid = true by decide)]
          push_cast
          ring
        · rw [if_neg (show ¬Pte.zero.wired = true by decide)]
          split <;> push_cast <;> ring
      obtain ⟨r', u', s', heq, hl', hc', hedits, hcounts'⟩ := @removeLoop_ok n (va + 1) _ _ _ hl1 hcounts
      refine ⟨r', u', s', heq, hl', hc', ?_, fun m' => ?_⟩
      · rw [show va + (n + 1) = va + 1 + n by omega]
        exact (hch.edits rfl).trans hedits (by omega) (by omega)
      · rw [(hcounts' m').1, (hcounts' m').2, hch.resident, hch.wired, ite_self, add_zero, add_zero]
        exact ⟨rfl, rfl⟩

theorem counts_settle {r u : Int} (h : Counts s m r u) :
    Counts ((s.addResident m (-r)).addWired m (-u)) m 0 0 := by
  have hch := ((Changes.refl s m 0).addResident (-r)).addWired (-u)
  simpa using hch.counts h

theorem removeRange_good (h : Inv M s) (m va n : Nat) :
    Good (s.removeRange M m va n) fun s' => Inv M s' ∧ Edits cleared m va (va + n) s s' := by
  unfold State.removeRange
  split
  next => rfl
  next =>
    obtain ⟨r, u, s1, heq, hl, hc, hedits, _⟩ := @removeLoop_ok M m n va 0 0 s h.linked (h.counts.any m)
    rw [heq]
    refine ⟨⟨hl.congr ?_ rfl, (counts_settle hc).any _⟩, ?_, fun m' i => ?_⟩
    · rw [entry_addWired, entry_addResident]
    · rw [entry_addWired, entry_addResident]
      exact hedits.entry
    · rw [tables_addWired, tables_addResident, hedits.present m' i]

theorem overTables_good {f : State → Nat → Nat → Except Panic State} {e : Nat} (hg : g .zero = .zero)
    (hf : ∀ s va n, Inv M s → Good (f s va n) fun s' => Inv M s' ∧ Edits g m va (va + n) s s') :
    ∀ {k b : Nat} {s : State}, Inv M s → b ≤ e → e - b ≤ k →
      Good (State.overTables f m e k b s) fun s' => Inv M s' ∧ Edits g m b e s s'
  | 0, b, s, h, hbe, hk => by
    have : b = e := by omega
    exact ⟨h, this ▸ Edits.refl g m b s⟩
  | k + 1, b, s, h, hbe, hk => by
    rw [State.overTables]
    by_cases hlt : b < e
    · rw [if_pos hlt]
      dsimp only
      have hend : b / nptes * nptes ≤ b := Nat.div_mul_le_self b nptes
      have hend' : b < (b / nptes + 1) * nptes := Nat.lt_mul_of_div_lt (Nat.lt_succ_self _) (by decide)
      have hnpos : 0 < nptes := by decide
      generalize hl : min ((b / nptes + 1) * nptes) e = l
      have hbl : b < l := by omega
      have hle : l ≤ e := by omega
      split
      next htable =>
        -- without a page table there are no entries
        have hzero : ∀ va, b ≤ va → va < l → s.entry m va = .zero := by
          intro va h1 h2
          refine entry_eq_zero ?_
          rw [show va / nptes = b / nptes from Nat.div_eq_of_lt_le (by omega) (by omega), htable]
        refine (overTables_good hg hf h hle (by omega)).mono fun s' ⟨h', hedits⟩ => ⟨h', ?_⟩
        exact (Edits.of_zero hg hzero).trans hedits (by omega) hle
      next =>
        have hfs := hf s b (l - b) h
        rw [show b + (l - b) = l by omega] at hfs
        cases heq : f s b (l - b) with
        | error p => exact hfs.error heq
        | ok s1 =>
          obtain ⟨h₁, hedits1⟩ := hfs.ok heq
          refine (overTables_good hg hf h₁ hle (by omega)).mono fun s' ⟨h', hedits⟩ => ⟨h', ?_⟩
          exact hedits1.trans hedits (by omega) hle
    · rw [if_neg hlt]
      have : b = e := by omega
      exact ⟨h, this ▸ Edits.refl g m b s⟩

end Mach.Intel.Pmap
