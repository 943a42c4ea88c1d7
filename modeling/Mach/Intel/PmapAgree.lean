import Mach.Intel.PmapEnter

/-!
# Page tables, lists and counts agree

All operations keep the invariant, and so every run does in which `pmap_change_wiring` wires
only what is mapped, as it asks of its caller. From any state of such a run no operation finds
a list that is empty or without the mapping it looks for, and the two protecting operations
only take permissions away.
-/

namespace Mach.Intel.Pmap

open Lib State VmProt

variable {M : Machine} {s s' : State} {m v : Nat}

/-! ## The other operations -/

theorem Inv.rewire (h : Inv M s) {m v : Nat} {e : Pte} {d : Int} (he : s.pte m v = some e)
    (hv : (s.entry m v).valid) (w : Bool)
    (hd : d = (if w then 1 else 0) - if e.wired then 1 else 0) :
    Inv M ((s.addWired m d).setPte m v { e with wired := w }) := by
  have hentry := entry_of_pte he
  have hch := (Changes.refl s m v).addWired d
  have hset := hch.setPte (by rw [hch.pte_isSome, he]; rfl) { e with wired := w }
  refine h.keep hset rfl hv (hentry ▸ hv) (by rw [hentry]) ?_
  rw [hentry, zero_add, hd]

theorem changeWiring_good (h : Inv M s) (m v : Nat) (wired : Bool) :
    Good (s.changeWiring m v wired) fun s' => (wired = true → (s.entry m v).valid = true) → Inv M s' := by
  unfold State.changeWiring
  split
  next => rfl
  next e he =>
    split
    next hwire =>
      intro hmapped
      obtain ⟨hwired, hew⟩ : wired = true ∧ e.wired = false := by simpa using hwire
      have hv := hmapped hwired
      exact h.rewire he hv true (by rw [hew]; rfl)
    next =>
      split
      next hunwire =>
        intro _
        obtain ⟨_, hew⟩ : wired = false ∧ e.wired = true := by simpa using hunwire
        -- a wired entry is not zero
        have hv : (s.entry m v).valid := by
          refine h.linked.sound m v ?_
          rw [entry_of_pte he]
          rintro rfl
          cases hew
        exact h.rewire he hv false (by rw [hew]; rfl)
      next => exact fun _ => h

theorem Edits.table_zero {i va : Nat} (h : Edits cleared m (i * nptes) (i * nptes + nptes) s s')
    (hva : va / nptes = i) : s'.entry m va = .zero := by
  have h1 := Nat.div_mul_le_self va nptes
  have h2 : va < (va / nptes + 1) * nptes := Nat.lt_mul_of_div_lt (Nat.lt_succ_self _) (by decide)
  rw [hva] at h1 h2
  rw [h.entry, if_pos ⟨rfl, h1, by rw [Nat.succ_mul] at h2; exact h2⟩]
  rfl

theorem Inv.dropTable {i : Nat} (h : Inv M s) (hzero : ∀ va, va / nptes = i → s.entry m va = .zero) :
    Inv M (s.dropTable m i) := by
  obtain ⟨hentry, hcounts⟩ := setTable_zero hzero (t := none) nofun rfl
  exact h.congr hentry rfl hcounts

theorem collectLoop_good : ∀ {n i : Nat} {s : State}, Inv M s →
    Good (State.collectLoop M m n i s) (Inv M)
  | 0, _, _, h => h
  | n + 1, i, s, h => by
    rw [State.collectLoop]
    split
    next => exact collectLoop_good h
    next table _ =>
      generalize ((List.range nptes).any fun j => (table j).wired) = wired
      cases wired with
      | true => exact collectLoop_good h
      | false =>
        rw [if_neg Bool.false_ne_true]
        have hrange := removeRange_good h m (i * nptes) nptes
        split
        next p heq => exact hrange.error heq
        next s1 heq =>
          obtain ⟨h1, hedits⟩ := hrange.ok heq
          exact collectLoop_good (h1.dropTable fun va => hedits.table_zero)

theorem collect_good (h : Inv M s) (m : Nat) : Good (s.collect M m) fun s' => Inv M s' := by
  unfold State.collect
  split
  next => exact h
  next => exact collectLoop_good h

/-! ## Runs -/

/-- `pmap_change_wiring` wires a mapping that exists. -/
def WiresMapped (s : State) : Action → Prop
  | .changeWiring m v wired => wired = true → (s.entry m v).valid = true
  | _ => True

theorem exec_good (h : Inv M s) (a : Action) : Good (exec M s a) fun s' => WiresMapped s a → Inv M s' := by
  cases a with
  | enter m v pa prot wired pvE =>
    have hgood := enter_good h m v pa prot wired pvE
    rw [exec]
    cases heq : s.enter M m v pa prot wired pvE with
    | error p => exact hgood.error heq
    | ok r => exact fun _ => (hgood.ok heq).1
  | remove m b e => exact (remove_good h m b e).mono fun _ h' _ => h'.1
  | protect m b e prot => exact (protect_good h m b e prot).mono fun _ h' _ => h'.1
  | pageProtect phys prot =>
    obtain ⟨s', heq, h', _⟩ := pageProtect_ok h phys prot
    rw [exec, heq]
    exact fun _ => h'
  | changeWiring m v wired => exact changeWiring_good h m v wired
  | collect m => exact (collect_good h m).mono fun _ h' _ => h'
  | use m v modified =>
    rw [exec]
    split
    next hv =>
      intro _
      exact h.keep (changes_setPte (isSome_of_valid hv) _) rfl hv hv rfl (sub_self _).symm
    next => exact fun _ => h

theorem Inv.init (h : s.Init) : Inv M s := by
  have hzero : ∀ m va, s.entry m va = .zero := by
    intro m va
    cases htable : (s.maps m).tables (va / nptes) with
    | none => exact entry_eq_zero htable
    | some table =>
      rw [State.entry, State.pte, htable]
      exact h.empty m _ table htable _
  have hempty : Counted 0 fun _ => false := by
    refine ⟨?_, ?_⟩
    · simp
    · simp
  refine ⟨⟨fun m va hne => absurd (hzero m va) hne, fun p _ pv => ?_⟩, ⟨fun m => ?_, fun m => ?_⟩⟩
  · rw [State.pvList, PvHead.toList, h.lists p, hzero]
    rfl
  · simp only [(h.counts m).1, hzero, ite_self, sub_zero]
    exact hempty
  · simp only [(h.counts m).2, hzero, ite_self, sub_zero]
    exact hempty

theorem Inv.reach (hs : (lts M).Reach WiresMapped s) : Inv M s := by
  refine hs.inv (I := Inv M) (fun s h => Inv.init h) fun s a s' h hok heq => ?_
  have hgood := exec_good h a
  cases hexec : exec M s a with
  | error p =>
    have hnone : (exec M s a).toOption = some s' := heq
    rw [hexec] at hnone
    cases hnone
  | ok s1 =>
    have hsome : (exec M s a).toOption = some s' := heq
    rw [hexec] at hsome hgood
    cases hsome
    exact hgood hok

/-! ## Permissions -/

/-- The mapping is the same and has no more permissions, if there still is one. -/
def Lowers (e e' : Pte) : Prop :=
  e'.valid = true → e.valid = true ∧ e'.frame = e.frame ∧ (e'.write = true → e.write = true) ∧ e'.user = e.user

theorem Lowers.refl (e : Pte) : Lowers e e := fun h => ⟨h, rfl, fun h => h, rfl⟩

theorem lowers_zero (e : Pte) : Lowers e .zero := nofun

theorem lowers_readOnly (e : Pte) : Lowers e { e with write := false } := fun h => ⟨h, rfl, nofun, rfl⟩

theorem lowers_afterProtect (prot : VmProt) (e : Pte) : Lowers e (afterProtect prot e) := by
  unfold afterProtect readOnly
  split
  next =>
    split
    next => exact lowers_readOnly e
    next => exact Lowers.refl e
  next =>
    split
    next => exact Lowers.refl e
    next => exact lowers_zero e

theorem lowers_afterPageProtect (M : Machine) (phys : Nat) (prot : VmProt) (pv : PvEntry) (e : Pte) :
    Lowers e (afterPageProtect M phys prot pv e) := by
  unfold afterPageProtect lowered
  split
  next =>
    split
    next => exact lowers_readOnly e
    next => exact lowers_zero e
  next => exact Lowers.refl e

theorem afterPageProtect_read {phys : Nat} (hp : M.validPage phys) {pv : PvEntry} (hpv : pv.pmap ≠ M.kernelPmap)
    {e : Pte} (hmaps : Maps (afterPageProtect M phys VmProt.read pv e) phys) :
    (afterPageProtect M phys VmProt.read pv e).write = false := by
  have hstays : stays M (removes VmProt.read) pv = true := by
    simp [stays, removes, hpv]
  unfold afterPageProtect at hmaps ⊢
  split at hmaps
  next hold =>
    rw [if_pos hold, hstays]
    rfl
  next hold => exact absurd ⟨hp, by decide, hmaps⟩ hold

theorem afterPageProtect_none {phys : Nat} (hp : M.validPage phys) (pv : PvEntry) (e : Pte) :
    ¬Maps (afterPageProtect M phys 0 pv e) phys := by
  intro hmaps
  unfold afterPageProtect at hmaps
  split at hmaps
  next =>
    have hstays : stays M (removes 0) pv = false := rfl
    exact Bool.false_ne_true hmaps.1
  next hold => exact hold ⟨hp, by decide, hmaps⟩

/-! ## The main result -/

/-- **Page tables, lists and counts agree.** In every run that wires only mappings: the list
of a managed page has each of its mappings once and nothing else; the counts of every map are
the numbers of its valid and of its wired entries; no call panics for a list that is empty or
does not have the mapping; and `pmap_protect` and `pmap_page_protect` only take permissions
away, in their range or for their page. -/
theorem pmap_agrees (hs : (lts M).Reach WiresMapped s) : (∀ p, M.validPage p → ∀ m va,
      (s.pvList p).count ⟨m, va⟩ = if (s.entry m va).valid ∧ (s.entry m va).frame = p then 1 else 0) ∧
    (∀ m, {va | (s.entry m va).valid = true}.Finite ∧
      (s.maps m).residentCount = {va | (s.entry m va).valid = true}.ncard ∧
      (s.maps m).wiredCount = {va | (s.entry m va).valid = true ∧ (s.entry m va).wired = true}.ncard) ∧
    (∀ a, exec M s a ≠ .error .nullPvList ∧ exec M s a ≠ .error .notInPvList) ∧
    (∀ m b e prot s', s.protect M m b e prot = .ok s' → ∀ m' va,
      Lowers (s.entry m' va) (s'.entry m' va) ∧
      (¬(m' = m ∧ b ≤ va ∧ va < e) → s'.entry m' va = s.entry m' va)) ∧
    (∀ phys prot s', s.pageProtect M phys prot = .ok s' →
      (∀ m va, Lowers (s.entry m va) (s'.entry m va) ∧
        (¬((s.entry m va).valid = true ∧ (s.entry m va).frame = phys) → s'.entry m va = s.entry m va)) ∧
      (M.validPage phys → prot = VmProt.read → ∀ m va, m ≠ M.kernelPmap →
        (s'.entry m va).valid = true → (s'.entry m va).frame = phys → (s'.entry m va).write = false) ∧
      (M.validPage phys → prot = 0 → ∀ m va, (s'.entry m va).valid = true → (s'.entry m va).frame ≠ phys)) := by
  have h := Inv.reach hs
  refine ⟨fun p hp m va => h.linked.linked p hp ⟨m, va⟩, fun m => ?_, fun a => ?_, ?_, ?_⟩
  · obtain ⟨hfin, hres⟩ := (h.counts.any (m + 1)).resident m
    obtain ⟨_, hwired⟩ := (h.counts.any (m + 1)).wired m
    -- a wired entry is valid
    have hset : {va | (s.entry m va).valid = true ∧ (s.entry m va).wired = true} =
        {va | (s.entry m va).wired = true} := by
      ext va
      refine ⟨fun h => h.2, fun hw => ⟨h.linked.sound m va ?_, hw⟩⟩
      intro h0
      have hw' : (s.entry m va).wired = true := hw
      rw [h0] at hw'
      cases hw'
    rw [ite_self, sub_zero] at hres hwired
    exact ⟨hfin, hres, hset ▸ hwired⟩
  · have hgood := exec_good h a
    exact ⟨fun heq => Bool.false_ne_true (hgood.error heq), fun heq => Bool.false_ne_true (hgood.error heq)⟩
  · intro m b e prot s' heq m' va
    have hentry := ((protect_good h m b e prot).ok heq).2.entry m' va
    refine ⟨?_, fun hout => by rw [hentry, if_neg hout]⟩
    rw [hentry]
    split
    next => exact lowers_afterProtect prot _
    next => exact Lowers.refl _
  · intro phys prot s' heq
    obtain ⟨s1, heq1, _, hentry⟩ := pageProtect_ok h phys prot
    cases heq.symm.trans heq1
    refine ⟨fun m va => ⟨?_, fun hout => ?_⟩, fun hp hprot m va hm hv hf => ?_, fun hp hprot m va hv hf => ?_⟩
    · rw [hentry]
      exact lowers_afterPageProtect M phys prot _ _
    · rw [hentry, afterPageProtect, if_neg fun h => hout h.2.2]
    · subst hprot
      rw [hentry] at hv hf ⊢
      exact afterPageProtect_read hp hm ⟨hv, hf⟩
    · subst hprot
      rw [hentry] at hv hf
      exact afterPageProtect_none hp _ _ ⟨hv, hf⟩

def small : Machine where
  kernelPmap := 0
  validPage := fun p => decide (p < 16)
  isPhysmem := fun _ => true
  kernelVirtualStart := 0
  kernelVirtualEnd := 1024
  maxUserAddress := 0

def unmapped : State where
  maps := fun _ => ⟨fun _ => none, 0, 0⟩
  pvHeadTable := fun _ => ⟨none, 0, []⟩
  pvFreeList := 0
  attributes := fun _ => ⟨false, false⟩

theorem unmapped_init : unmapped.Init := ⟨nofun, fun _ => ⟨rfl, rfl⟩, fun _ => rfl⟩

/-- Two maps share a page; it is protected, and one of them removes it. -/
theorem pmap_agrees_sharedPage :
    ∃ s, (lts small).run unmapped [.enter 1 5 7 VmProt.all true false, .enter 2 9 7 VmProt.all false false,
        .enter 2 9 7 VmProt.all false true, .pageProtect 7 VmProt.read, .changeWiring 1 5 false,
        .remove 1 0 512] = some s ∧
      s.pvList 7 = [⟨2, 9⟩] ∧
      (s.pvList 7).count ⟨2, 9⟩ = (if (s.entry 2 9).valid ∧ (s.entry 2 9).frame = 7 then 1 else 0) ∧
      (s.maps 2).residentCount = {va | (s.entry 2 va).valid = true}.ncard := by
  have hlist : ((lts small).run unmapped [.enter 1 5 7 all true false,
      .enter 2 9 7 all false false, .enter 2 9 7 all false true, .pageProtect 7 VmProt.read,
      .changeWiring 1 5 false, .remove 1 0 512]).map (fun s => s.pvList 7) = some [⟨2, 9⟩] := by
    decide +kernel
  obtain ⟨s, hrun, hs⟩ := Option.map_eq_some_iff.mp hlist
  have hok : (lts small).okRun WiresMapped unmapped [.enter 1 5 7 all true false,
      .enter 2 9 7 all false false, .enter 2 9 7 all false true, .pageProtect 7 VmProt.read,
      .changeWiring 1 5 false, .remove 1 0 512] := by
    refine Lts.okRun_of_forall _ _ _ fun a ha s => ?_
    simp only [List.mem_cons, List.not_mem_nil, or_false] at ha
    rcases ha with rfl | rfl | rfl | rfl | rfl | rfl
    all_goals simp [WiresMapped]
  obtain ⟨hcount, hcounts, _⟩ := pmap_agrees (.run _ (.start unmapped_init) hok hrun)
  exact ⟨s, hrun, hs, hcount 7 rfl 2 9, (hcounts 2).2.1⟩

/-- An address is wired that is not mapped; page 0 is then taken for mapped there already,
and is neither counted nor put on its list. -/
theorem residentCount_wiredUnmapped :
    ∃ s, (lts small).run unmapped [.enter 1 1 5 VmProt.all false false, .changeWiring 1 0 true,
        .enter 1 0 0 VmProt.all true false] = some s ∧
      (s.maps 1).residentCount ≠ {va | (s.entry 1 va).valid = true}.ncard ∧
      (s.entry 1 0).valid = true ∧ (s.entry 1 0).frame = 0 ∧ small.validPage 0 = true ∧
      (s.pvList 0).count ⟨1, 0⟩ = 0 := by
  have hfacts : ((lts small).run unmapped [.enter 1 1 5 all false false, .changeWiring 1 0 true,
      .enter 1 0 0 all true false]).map (fun s => ((s.maps 1).residentCount, (s.entry 1 0).valid,
        (s.entry 1 1).valid, (s.entry 1 0).frame, (s.pvList 0).count ⟨1, 0⟩)) =
      some (1, true, true, 0, 0) := by
    decide
  obtain ⟨s, hrun, hs⟩ := Option.map_eq_some_iff.mp hfacts
  simp only [Prod.mk.injEq] at hs
  obtain ⟨hres, hv0, hv1, hf, hcount⟩ := hs
  refine ⟨s, hrun, fun heq => ?_, hv0, hf, rfl, hcount⟩
  -- two addresses are mapped, but one is counted
  have hone : {va | (s.entry 1 va).valid = true}.ncard = 1 := by
    rw [hres] at heq
    exact_mod_cast heq.symm
  obtain ⟨va, hva⟩ := Set.ncard_eq_one.mp hone
  have h0 : (0 : Nat) ∈ ({va} : Set Nat) := hva ▸ hv0
  have h1 : (1 : Nat) ∈ ({va} : Set Nat) := hva ▸ hv1
  rw [Set.mem_singleton_iff] at h0 h1
  omega

/-- **`pmap_remove` is exact**, in every run that wires only mappings: the entries of its range
are zero, no list of a managed page has a mapping in the range any more, and all other
entries and mappings are as they were. -/
theorem remove_exact (hs : (lts M).Reach WiresMapped s) {b e : Nat} (heq : s.remove M m b e = .ok s') :
    (∀ m' va, s'.entry m' va = if m' = m ∧ b ≤ va ∧ va < e then .zero else s.entry m' va) ∧
    ∀ p, M.validPage p → ∀ m' va, (s'.pvList p).count ⟨m', va⟩ =
      if m' = m ∧ b ≤ va ∧ va < e then 0 else (s.pvList p).count ⟨m', va⟩ := by
  have h := Inv.reach hs
  obtain ⟨h', hedits⟩ := (remove_good h m b e).ok heq
  refine ⟨hedits.entry, fun p hp m' va => ?_⟩
  rw [h'.linked.linked p hp, h.linked.linked p hp, hedits.entry]
  split
  next => exact if_neg fun hmaps => Bool.false_ne_true hmaps.1
  next => rfl

def twoMappings : List Action :=
  [.enter 1 5 7 all true false, .enter 2 9 7 all false false, .enter 2 9 7 all false true]

theorem twoMappings_reach (h : (lts small).run unmapped twoMappings = some s) :
    (lts small).Reach WiresMapped s :=
  .run twoMappings (.start unmapped_init) (Lts.okRun_of_forall _ _ _ fun a ha s => by
    simp only [twoMappings, List.mem_cons, List.not_mem_nil, or_false] at ha
    rcases ha with rfl | rfl | rfl <;> trivial) h

theorem remove_exact_twoMappings :
    ∃ s s', (lts small).run unmapped twoMappings = some s ∧ s.pvList 7 = [⟨1, 5⟩, ⟨2, 9⟩] ∧
      s.remove small 1 5 6 = .ok s' ∧ s'.entry 1 5 = .zero ∧ (s'.pvList 7).count ⟨1, 5⟩ = 0 ∧
      (s'.pvList 7).count ⟨2, 9⟩ = 1 := by
  obtain ⟨s, hrun, hs⟩ := Option.map_eq_some_iff.mp (show ((lts small).run unmapped twoMappings).map
    (fun s => ((s.remove small 1 5 6).toOption.isSome, s.pvList 7)) = some (true, [⟨1, 5⟩, ⟨2, 9⟩]) by
      decide +kernel)
  obtain ⟨hok, hlist⟩ := Prod.mk.inj hs
  cases heq : s.remove small 1 5 6 with
  | error p => rw [heq] at hok; cases hok
  | ok s' =>
    obtain ⟨hentry, hcount⟩ := remove_exact (twoMappings_reach hrun) heq
    refine ⟨s, s', hrun, hlist, heq, hentry 1 5, hcount 7 rfl 1 5, (hcount 7 rfl 2 9).trans ?_⟩
    rw [hlist]
    rfl

/-- The entry that a pass of `pmap_enter` leaves where `e` was: a page that was mapped there
before keeps its modify bit, and a pass without an entry for the list leaves nothing. -/
def afterEnter (M : Machine) (m pa : Nat) (prot : VmProt) (wired done : Bool) (e : Pte) : Pte :=
  if done then { template M m pa prot wired with modified := decide (e.frame = pa) && e.modified }
  else .zero

theorem enter_entry (h : Inv M s) {pa : Nat} {prot : VmProt} {wired pvE done : Bool}
    (heq : s.enter M m v pa prot wired pvE = .ok (done, s')) (m' va : Nat) : s'.entry m' va =
      if m' = m ∧ va = v then afterEnter M m pa prot wired done (s.entry m v) else s.entry m' va := by
  have hfree : ∀ (b : Bool) (s : State), (if b then s.pvFree 1 else s).entry = s.entry := by
    intro b s
    cases b <;> rfl
  unfold State.enter at heq
  split at heq
  · cases heq
  have hexpand := expand_good h m v
  split at heq
  · cases heq
  rename_i s1 hexpanded
  obtain ⟨h1, hpte, hentry⟩ := hexpand.ok hexpanded
  rw [← hentry]
  dsimp only at heq
  split at heq
  next hsame =>
    obtain ⟨s2, hs2, -, -, hch⟩ := rewired s1 m v wired
    rw [← hs2] at heq
    have hset := hch.setPte (by rw [hch.pte_isSome, hpte])
      { template M m pa prot wired with modified := (s1.entry m v).modified }
    cases heq
    rw [hfree, hset.entry, afterEnter, hsame.2, decide_eq_true rfl, Bool.true_and]
    rfl
  next hother =>
    split at heq
    · cases heq
    rename_i s2 hremoved
    obtain ⟨h2, hpte2, hgone⟩ : Inv M s2 ∧ (s2.pte m v).isSome ∧
        ∀ m' va, s2.entry m' va = if m' = m ∧ va = v then .zero else s1.entry m' va := by
      split at hremoved
      next =>
        obtain ⟨h2, hedits⟩ := (removeRange_good h1 m v 1).ok hremoved
        refine ⟨h2, (hedits.cleared_one hpte).1, fun m' va => ?_⟩
        rw [hedits.entry]
        exact if_congr (and_congr_right fun _ => by omega) rfl rfl
      next hzero =>
        cases hremoved
        refine ⟨h1, hpte, fun m' va => ?_⟩
        split
        next hsame => rw [hsame.1, hsame.2, not_not.mp hzero]
        next => rfl
    split at heq
    next =>
      cases heq
      exact hgone m' va
    next left s3 hlist =>
      have hzero := (hgone m v).trans (if_pos ⟨rfl, rfl⟩)
      obtain ⟨s4, hs4, -, -, hch⟩ := Lists.entered wired h2.linked.linked hpte2 hzero hlist prot
      rw [← hs4] at heq
      cases heq
      -- another page was mapped there, or none
      have hmodified : (decide ((s1.entry m v).frame = pa) && (s1.entry m v).modified) = false := by
        by_cases hzero : s1.entry m v = .zero
        · rw [hzero]
          exact Bool.and_false _
        · rw [decide_eq_false fun hframe => hother ⟨hzero, hframe⟩, Bool.false_and]
      rw [hfree, hch.entry, hgone, afterEnter, hmodified]
      split <;> rfl

/-- **`pmap_enter` is exact**, in every run that wires only mappings: a pass that was given an
entry for the list enters the page; then the address maps it as asked and is on the list of
this page alone, and all other entries and mappings of all maps are as they were. -/
theorem enter_exact (hs : (lts M).Reach WiresMapped s) {pa : Nat} {prot : VmProt} {wired pvE done : Bool}
    (heq : s.enter M m v pa prot wired pvE = .ok (done, s')) : (pvE = true → done = true) ∧
    (∀ m' va, s'.entry m' va =
      if m' = m ∧ va = v then afterEnter M m pa prot wired done (s.entry m v) else s.entry m' va) ∧
    ∀ p, M.validPage p → ∀ m' va, (s'.pvList p).count ⟨m', va⟩ =
      if m' = m ∧ va = v then (if done ∧ p = pa then 1 else 0) else (s.pvList p).count ⟨m', va⟩ := by
  have h := Inv.reach hs
  obtain ⟨h', hdone⟩ := (enter_good h m v pa prot wired pvE).ok heq
  refine ⟨hdone, enter_entry h heq, fun p hp m' va => ?_⟩
  rw [h'.linked.linked p hp, h.linked.linked p hp, enter_entry h heq]
  split
  next =>
    cases done with
    | true => exact if_congr ⟨fun hmaps => ⟨rfl, hmaps.2.symm⟩, fun hp => ⟨rfl, hp.2.symm⟩⟩ rfl rfl
    | false => exact if_congr ⟨fun hmaps => absurd hmaps.1 Bool.false_ne_true, fun hp => absurd hp.1 Bool.false_ne_true⟩ rfl rfl
  next => rfl

/-- An address of one of the two maps goes to the page 8. -/
theorem enter_exact_moved :
    ∃ s s', (lts small).run unmapped twoMappings = some s ∧
      s.enter small 1 5 8 VmProt.read false true = .ok (true, s') ∧
      (s'.pvList 7).count ⟨1, 5⟩ = 0 ∧ (s'.pvList 8).count ⟨1, 5⟩ = 1 ∧
      (s'.pvList 7).count ⟨2, 9⟩ = (s.pvList 7).count ⟨2, 9⟩ := by
  obtain ⟨s, hrun, hok⟩ := Option.map_eq_some_iff.mp (show ((lts small).run unmapped twoMappings).map
    (fun s => (s.enter small 1 5 8 VmProt.read false true).toOption.isSome) = some true by
      decide +kernel)
  cases heq : s.enter small 1 5 8 VmProt.read false true with
  | error p => rw [heq] at hok; cases hok
  | ok r =>
    obtain ⟨done, s'⟩ := r
    obtain ⟨hdone, -, hlist⟩ := enter_exact (twoMappings_reach hrun) heq
    cases hdone rfl
    exact ⟨s, s', hrun, heq, hlist 7 rfl 1 5, hlist 8 rfl 1 5, hlist 7 rfl 2 9⟩

end Mach.Intel.Pmap
