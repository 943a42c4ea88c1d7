import Mach.Intel.PmapRemove

/-!
# Protecting ranges and pages

`pmap_protect` goes over a range of one map and `pmap_page_protect` over the list of a page;
both take away write permission or the whole mapping. The list that `pmap_page_protect` leaves
is the part of the old one that stays, although the head is put right only at the end.
-/

namespace Mach.Intel.Pmap

open Lib Function List State

variable {M : Machine} {s s' : State} {m va : Nat} {e : Pte}

theorem Lists.keep {dr dw : Int} (h : Lists M s) (hch : Changes s s' m va e dr dw)
    (hpv : s'.pvHeadTable = s.pvHeadTable)
    (hmaps : ∀ p, M.validPage p → (Maps (s.entry m va) p ↔ Maps e p)) : Lists M s' := by
  intro p hp pv
  unfold State.pvList
  rw [hpv]
  refine (h p hp pv).trans ?_
  by_cases hsame : pv.pmap = m ∧ pv.va = va
  · rw [hsame.1, hsame.2, hch.entry_same, if_congr (hmaps p hp) rfl rfl]
  · rw [hch.entry_ne hsame]

theorem Linked.keep {dr dw : Int} (h : Linked M s) (hch : Changes s s' m va e dr dw)
    (hpv : s'.pvHeadTable = s.pvHeadTable) (hv : (s.entry m va).valid) (he : e.valid)
    (hf : e.frame = (s.entry m va).frame) : Linked M s' := by
  refine ⟨hch.sound h.sound fun _ => he, Lists.keep h.linked hch hpv fun p _ => ?_⟩
  unfold Maps
  rw [hv, he, hf]

theorem Inv.keep {dw : Int} (h : Inv M s) (hch : Changes s s' m va e 0 dw)
    (hpv : s'.pvHeadTable = s.pvHeadTable) (hv : (s.entry m va).valid) (he : e.valid)
    (hf : e.frame = (s.entry m va).frame)
    (hw : dw = (if e.wired then 1 else 0) - if (s.entry m va).wired then 1 else 0) : Inv M s' := by
  refine ⟨h.linked.keep hch hpv hv he hf, Counts.any (m := m) ?_ _⟩
  convert hch.counts (h.counts.any m) using 1
  · rw [if_pos he, if_pos hv]
    ring
  · rw [hw]
    ring

/-! ## `pmap_protect` -/

def readOnly (e : Pte) : Pte := if e.valid then { e with write := false } else e

theorem protectRange_good : ∀ {n va : Nat} {s : State}, Inv M s →
    Inv M (State.protectRange m n va s) ∧ Edits readOnly m va (va + n) s (State.protectRange m n va s)
  | 0, va, s, h => ⟨h, Edits.refl readOnly m va s⟩
  | n + 1, va, s, h => by
    rw [State.protectRange]
    have hone : Inv M (if (s.entry m va).valid then s.setPte m va { s.entry m va with write := false } else s) ∧
        Edits readOnly m va (va + 1) s
          (if (s.entry m va).valid then s.setPte m va { s.entry m va with write := false } else s) := by
      split
      next hv =>
        have hch := changes_setPte (isSome_of_valid hv) { s.entry m va with write := false }
        refine ⟨h.keep hch rfl hv hv rfl (sub_self _).symm, hch.edits ?_⟩
        rw [readOnly, if_pos hv]
      next hv =>
        refine ⟨h, ?_⟩
        by_cases hz : s.entry m va = .zero
        · exact Edits.of_zero rfl fun va' h1 h2 => (show va' = va by omega) ▸ hz
        · exact absurd (h.linked.sound m va hz) hv
    obtain ⟨h', hedits⟩ := @protectRange_good n (va + 1) _ hone.1
    refine ⟨h', ?_⟩
    rw [show va + (n + 1) = va + 1 + n by omega]
    exact hone.2.trans hedits (by omega) (by omega)

theorem overTables_range {g : Pte → Pte} {f : State → Nat → Nat → Except Panic State} (hg : g .zero = .zero)
    (hf : ∀ s va n, Inv M s → Good (f s va n) fun s' => Inv M s' ∧ Edits g m va (va + n) s s')
    (h : Inv M s) (b e : Nat) :
    Good (State.overTables f m e (e - b) b s) fun s' => Inv M s' ∧ Edits g m b e s s' := by
  by_cases hbe : b ≤ e
  · exact overTables_good hg hf h hbe le_rfl
  · rw [show e - b = 0 by omega]
    refine ⟨h, ⟨fun m' va' => ?_, fun _ _ => rfl⟩⟩
    rw [if_neg (by omega)]

theorem remove_good (h : Inv M s) (m b e : Nat) :
    Good (s.remove M m b e) fun s' => Inv M s' ∧ Edits cleared m b e s s' :=
  overTables_range rfl (fun _ va n hs => removeRange_good hs m va n) h b e

/-- What `pmap_protect` makes of the entries of its range. -/
def afterProtect (prot : VmProt) (e : Pte) : Pte :=
  if prot = VmProt.read ∨ prot = VmProt.read ||| VmProt.execute then readOnly e
  else if prot = VmProt.read ||| VmProt.write ∨ prot = VmProt.all then e
  else .zero

theorem protect_good (h : Inv M s) (m b e : Nat) (prot : VmProt) :
    Good (s.protect M m b e prot) fun s' => Inv M s' ∧ Edits (afterProtect prot) m b e s s' := by
  unfold State.protect
  split
  next hread =>
    have hg : afterProtect prot = readOnly := by
      funext e
      rw [afterProtect, if_pos hread]
    rw [hg]
    refine overTables_range rfl (fun s va n hs => ?_) h b e
    exact protectRange_good hs
  next hread =>
    split
    next hall =>
      refine ⟨h, ⟨fun m' va' => ?_, fun _ _ => rfl⟩⟩
      rw [afterProtect, if_neg hread, if_pos hall, ite_self]
    next hall =>
      have hg : afterProtect prot = cleared := by
        funext e
        rw [afterProtect, if_neg hread, if_neg hall, cleared]
      rw [hg]
      exact remove_good h m b e

/-! ## `pmap_page_protect` -/

section

variable {phys : Nat} {remove : Bool}

def stays (M : Machine) (remove : Bool) (pv : PvEntry) : Bool := !(remove || decide (pv.pmap = M.kernelPmap))

def lowered (stays : Bool) (e : Pte) : Pte := if stays then { e with write := false } else .zero

structure ProtectStep (M : Machine) (phys : Nat) (remove : Bool) (s s' : State) (pv : PvEntry) : Prop where
  maps : Maps (s.entry pv.pmap pv.va) phys
  lists : s'.pvHeadTable = s.pvHeadTable
  attributes : s'.attributes = if stays M remove pv then s.attributes
    else (s.collectBits (s.entry pv.pmap pv.va)).attributes
  changes : Changes s s' pv.pmap pv.va (lowered (stays M remove pv) (s.entry pv.pmap pv.va))
    (if stays M remove pv then 0 else -1)
    (if stays M remove pv then 0 else if (s.entry pv.pmap pv.va).wired then -1 else 0)

theorem protectMapping_ok (remove : Bool) (hmaps : Maps (s.entry m va) phys) :
    ∃ s', s.protectMapping M phys remove m va = .ok (stays M remove ⟨m, va⟩, s') ∧
      ProtectStep M phys remove s s' ⟨m, va⟩ := by
  have hpte := isSome_of_valid hmaps.1
  obtain ⟨e, he⟩ := Option.isSome_iff_exists.mp hpte
  have hentry := entry_of_pte he
  unfold State.protectMapping
  rw [he]
  have hmaps' : e.valid = true ∧ e.frame = phys := hentry ▸ hmaps
  dsimp only
  rw [if_pos hmaps']
  by_cases hgo : remove = true ∨ m = M.kernelPmap
  · have hstays : stays M remove ⟨m, va⟩ = false := by
      rcases hgo with rfl | rfl
      · rfl
      · simp [stays]
    rw [if_pos hgo, hstays]
    -- the counts go down with the entry
    obtain ⟨hpv, hattr, hch⟩ : (if e.wired then s.addWired m (-1) else s).pvHeadTable = s.pvHeadTable ∧
        (if e.wired then s.addWired m (-1) else s).attributes = s.attributes ∧
        Changes s (if e.wired then s.addWired m (-1) else s) m va (s.entry m va) 0
          (if e.wired then -1 else 0) := by
      split
      · exact ⟨rfl, rfl, (Changes.refl s m va).addWired (-1)⟩
      · exact ⟨rfl, rfl, Changes.refl s m va⟩
    generalize (if e.wired then s.addWired m (-1) else s) = s1 at hpv hattr hch
    have hbits : Changes s (s1.collectBits e) m va (s.entry m va) 0 (if e.wired then -1 else 0) :=
      ⟨hch.entry, hch.resident, hch.wired, hch.present⟩
    have hend := (hbits.setPte (by rw [hbits.pte_isSome, hpte]) .zero).addResident (-1)
    refine ⟨_, rfl, ⟨hmaps, hpv, ?_, ?_⟩⟩
    · change (s1.collectBits e).attributes = _
      rw [hstays, hentry, State.collectBits, hattr]
      rfl
    · rw [hstays, hentry]
      exact hend
  · have hstays : stays M remove ⟨m, va⟩ = true := by
      rw [not_or] at hgo
      simp [stays, hgo.1, hgo.2]
    rw [if_neg hgo, hstays]
    have hch := changes_setPte hpte { e with write := false }
    refine ⟨_, rfl, ⟨hmaps, rfl, ?_, ?_⟩⟩
    · rw [hstays]
      rfl
    · rw [hstays, hentry]
      exact hch

theorem ProtectStep.counts {k : Nat} {pv : PvEntry} (h : ProtectStep M phys remove s s' pv)
    (hc : Counts s k 0 0) : Counts s' k 0 0 := by
  refine Counts.any (m := pv.pmap) ?_ k
  have hend := h.changes.counts (hc.any pv.pmap)
  cases hst : stays M remove pv with
  | true =>
    rw [hst] at hend
    convert hend using 1
    · rw [if_pos rfl, lowered, if_pos rfl]
      ring
    · rw [if_pos rfl, lowered, if_pos rfl]
      ring
  | false =>
    rw [hst] at hend
    convert hend using 1
    · rw [if_pos h.maps.1]
      rfl
    · cases (s.entry pv.pmap pv.va).wired with
      | true => rfl
      | false => rfl

theorem protectLoop_ok {P : State → Prop} (remove : Bool)
    (hP : ∀ s s' pv, ProtectStep M phys remove s s' pv → P s → P s') :
    ∀ {list : List PvEntry} {s : State}, P s → list.Nodup →
    (∀ pv ∈ list, Maps (s.entry pv.pmap pv.va) phys) →
    ∃ freed s', State.protectLoop M phys remove list s = .ok (list.filter (stays M remove), freed, s') ∧
      P s' ∧ s'.pvHeadTable = s.pvHeadTable ∧
      (∀ m va, s'.entry m va =
        if ⟨m, va⟩ ∈ list then lowered (stays M remove ⟨m, va⟩) (s.entry m va) else s.entry m va) ∧
      ∀ m i, ((s'.maps m).tables i).isSome = ((s.maps m).tables i).isSome
  | [], s, hc, _, _ => ⟨0, s, rfl, hc, rfl, fun m va => by rw [if_neg not_mem_nil], fun _ _ => rfl⟩
  | pv :: rest, s, hc, hnodup, hmaps => by
    obtain ⟨hnot, hnodup'⟩ := nodup_cons.mp hnodup
    obtain ⟨s1, heq1, hstep⟩ :=
      @protectMapping_ok M s pv.pmap pv.va phys remove (hmaps pv mem_cons_self)
    have hch := hstep.changes
    -- the others are still as they were
    have hother : ∀ pv' ∈ rest, s1.entry pv'.pmap pv'.va = s.entry pv'.pmap pv'.va := by
      intro pv' hpv'
      refine hch.entry_ne fun hsame => hnot ?_
      have : pv' = pv := PvEntry.eq_mk hsame
      exact this ▸ hpv'
    obtain ⟨freed, s', heq, hc', hpv', hentry, hpresent⟩ := protectLoop_ok remove hP (hP s s1 pv hstep hc)
      hnodup' fun pv' hpv' => by
        rw [hother pv' hpv']
        exact hmaps pv' (mem_cons_of_mem _ hpv')
    rw [State.protectLoop, heq1]
    dsimp only
    rw [heq]
    have hresult : ∃ freed', (if stays M remove pv = true then (pv :: rest.filter (stays M remove), freed, s')
        else (rest.filter (stays M remove), freed + 1, s')) =
          ((pv :: rest).filter (stays M remove), freed', s') := by
      by_cases hst : stays M remove pv = true
      · exact ⟨freed, by rw [if_pos hst, filter_cons_of_pos hst]⟩
      · exact ⟨freed + 1, by rw [if_neg hst, filter_cons_of_neg hst]⟩
    obtain ⟨freed', hresult⟩ := hresult
    refine ⟨freed', s', congrArg Except.ok hresult, hc', hpv'.trans hstep.lists, fun m va => ?_, fun m i => ?_⟩
    · rw [hentry]
      by_cases hhead : m = pv.pmap ∧ va = pv.va
      · have hpv : (⟨m, va⟩ : PvEntry) = pv := PvEntry.eq_mk hhead
        rw [hpv, if_neg hnot, if_pos mem_cons_self, hch.entry, if_pos hhead, hhead.1, hhead.2]
      · have hne : (⟨m, va⟩ : PvEntry) ≠ pv := by
          rintro rfl
          exact hhead ⟨rfl, rfl⟩
        rw [hch.entry_ne hhead]
        by_cases hmem : (⟨m, va⟩ : PvEntry) ∈ rest
        · rw [if_pos hmem, if_pos (mem_cons_of_mem _ hmem)]
        · rw [if_neg hmem, if_neg fun h => (mem_cons.mp h).elim hne hmem]
    · rw [hpresent, hch.present]

theorem pageProtect_eq {prot : VmProt} {list : List PvEntry} {freed : Nat} (hp : M.validPage phys)
    (hall : prot ≠ VmProt.all)
    (hremove : remove = decide (prot ≠ VmProt.read ∧ prot ≠ VmProt.read ||| VmProt.execute))
    (hloop : State.protectLoop M phys remove (s.pvList phys) s = .ok (list, freed, s')) :
    ∃ h' freed', s.pageProtect M phys prot = .ok ((s'.setPv phys h').pvFree freed') ∧ h'.toList = list := by
  unfold State.pageProtect
  rw [if_neg (not_not.mpr hp), if_neg hall]
  unfold State.pvList PvHead.toList at hloop
  dsimp only
  rw [← hremove]
  cases hhead : (s.pvHeadTable phys).pmap with
  | none =>
    rw [hhead] at hloop
    cases hloop
    refine ⟨s.pvHeadTable phys, 0, ?_, ?_⟩
    · have hsame : (s.setPv phys (s.pvHeadTable phys)).pvFree 0 = s := by
        rw [State.setPv, update_eq_self]
        rfl
      exact congrArg Except.ok hsame.symm
    · rw [PvHead.toList, hhead]
  | some pmap =>
    rw [hhead, State.protectLoop] at hloop
    dsimp only at hloop ⊢
    split at hloop
    · cases hloop
    rename_i kept s1 _
    split at hloop
    · cases hloop
    cases kept with
    | true =>
      cases hloop
      exact ⟨_, _, rfl, rfl⟩
    | false =>
      cases hloop
      cases list with
      | nil | cons => exact ⟨_, _, rfl, rfl⟩

def removes (prot : VmProt) : Bool :=
  decide (prot ≠ VmProt.read ∧ prot ≠ VmProt.read ||| VmProt.execute)

def afterPageProtect (M : Machine) (phys : Nat) (prot : VmProt) (pv : PvEntry) (e : Pte) : Pte :=
  if M.validPage phys ∧ prot ≠ VmProt.all ∧ Maps e phys then lowered (stays M (removes prot) pv) e else e

theorem pageProtect_lists {P : State → Prop} {prot : VmProt} (hl : Lists M s) (hp : M.validPage phys)
    (hall : prot ≠ VmProt.all) (hP : ∀ s s' pv, ProtectStep M phys (removes prot) s s' pv → P s → P s')
    (h : P s) : ∃ s1 h' freed, s.pageProtect M phys prot = .ok ((s1.setPv phys h').pvFree freed) ∧ P s1 ∧
      Lists M (s1.setPv phys h') ∧ ∀ m va, s1.entry m va =
        if Maps (s.entry m va) phys then lowered (stays M (removes prot) ⟨m, va⟩) (s.entry m va)
        else s.entry m va := by
  obtain ⟨freed, s1, hloop, hP1, hpv, hentry, -⟩ := protectLoop_ok (removes prot) hP h
    (hl.nodup hp) fun pv => (hl.mem_iff hp pv).mp
  obtain ⟨h', freed', heq, hlist⟩ := pageProtect_eq hp hall rfl hloop
  -- on the list are exactly the mappings of the page
  have hentry' : ∀ m va, s1.entry m va =
      if Maps (s.entry m va) phys then lowered (stays M (removes prot) ⟨m, va⟩) (s.entry m va)
      else s.entry m va := by
    intro m va
    rw [hentry, if_congr (hl.mem_iff hp ⟨m, va⟩) rfl rfl]
  refine ⟨s1, h', freed', heq, hP1, fun p hp' pv => ?_, hentry'⟩
  change (update s1.pvHeadTable phys h' p).toList.count pv =
    if Maps (s1.entry pv.pmap pv.va) p then 1 else 0
  rw [hentry', hpv]
  have hold := hl p hp' pv
  unfold State.pvList at hold
  by_cases hpp : p = phys
  · subst hpp
    rw [update_self, hlist]
    by_cases hst : stays M (removes prot) pv = true
    · have hiff : Maps (if Maps (s.entry pv.pmap pv.va) p then
          lowered (stays M (removes prot) pv) (s.entry pv.pmap pv.va) else s.entry pv.pmap pv.va) p ↔
            Maps (s.entry pv.pmap pv.va) p := by
        rw [hst]
        split
        next hmaps => exact ⟨fun _ => hmaps, fun h => h⟩
        next => exact Iff.rfl
      rw [count_filter hst, if_congr hiff rfl rfl]
      exact hold
    · rw [count_eq_zero.mpr fun hmem => hst (mem_filter.mp hmem).2, if_neg]
      rw [(Bool.not_eq_true _).mp hst]
      split
      next => exact fun h => Bool.false_ne_true h.1
      next hmaps => exact hmaps
  · rw [update_of_ne hpp, hold]
    refine if_congr ?_ rfl rfl
    split
    next hmaps =>
      have hframe : ∀ {e : Pte}, e.frame = phys → ¬Maps e p := fun he h => hpp (h.2.symm.trans he)
      refine ⟨fun h => absurd h (hframe hmaps.2), fun h => ?_⟩
      unfold lowered at h
      split at h
      next => exact absurd h (hframe hmaps.2)
      next => exact absurd h.1 Bool.false_ne_true
    next => exact Iff.rfl

theorem pageProtect_noop {prot : VmProt} (h : ¬(M.validPage phys ∧ prot ≠ VmProt.all)) :
    s.pageProtect M phys prot = .ok s := by
  unfold State.pageProtect
  by_cases hp : M.validPage phys = true
  · rw [if_neg (not_not.mpr hp), if_pos (not_not.mp fun hall => h ⟨hp, hall⟩)]
  · rw [if_pos hp]

theorem pageProtect_ok (h : Inv M s) (phys : Nat) (prot : VmProt) :
    ∃ s', s.pageProtect M phys prot = .ok s' ∧ Inv M s' ∧
      ∀ m va, s'.entry m va = afterPageProtect M phys prot ⟨m, va⟩ (s.entry m va) := by
  by_cases hgo : M.validPage phys ∧ prot ≠ VmProt.all
  · obtain ⟨hp, hall⟩ := hgo
    obtain ⟨s1, h', freed, heq, hc, hlists, hentry⟩ := pageProtect_lists
      h.linked.linked hp hall (fun _ _ _ hstep => hstep.counts) h.counts
    refine ⟨_, heq, ⟨⟨fun m va hz => ?_, hlists⟩, hc.resident, hc.wired⟩, fun m va => ?_⟩
    · change (s1.entry m va).valid
      change s1.entry m va ≠ .zero at hz
      rw [hentry] at hz ⊢
      split at hz
      next hmaps =>
        rw [if_pos hmaps]
        unfold lowered at hz ⊢
        split at hz
        next hst =>
          rw [if_pos hst]
          exact hmaps.1
        next => exact absurd rfl hz
      next hmaps =>
        rw [if_neg hmaps]
        exact h.linked.sound m va hz
    · change s1.entry m va = _
      rw [hentry]
      exact if_congr ⟨fun hmaps => ⟨hp, hall, hmaps⟩, fun h => h.2.2⟩ rfl rfl
  · refine ⟨s, pageProtect_noop hgo, h, fun m va => ?_⟩
    rw [afterPageProtect, if_neg fun h => hgo ⟨h.1, h.2.1⟩]

end

end Mach.Intel.Pmap
