import Mach.Vm.CowCollapse

/-!
# Page faults

A read fault and the two parts of a write fault that move pages are not noticed either. The
write itself changes what is seen at one place of one object only: its copy object has the
page by then, and nothing else lies over an object that may be written.
-/

namespace Mach.Vm.Cow

open Lib Lib.Overlay Function Option

variable {V : Type} [Inhabited V] {held : Nat → Nat} {readOnly : Nat → Bool}

namespace Heap

variable {h h' : Heap V} {i o : Nat} {obj : VmObject V} {d : V}

theorem sees_contents (hwf : h.WfIn held readOnly) (hi : (h.layers i).isSome) (o : Nat) :
    Sees h.layers default i o (h.contents i o) := by
  obtain ⟨rank, hr, hbound⟩ := hwf.ranked
  unfold contents
  rw [search_eq]
  exact sees_look hr (hbound i hi) hi

/-! ## Pages of one object -/

section

variable {memq : List (Page V)}

omit [Inhabited V] in
theorem setGet_pages (hobj : h.objects i = some obj) (memq : List (Page V)) :
    SetGet h.layers (h.set i { obj with memq := memq }).layers i obj.layer
      { obj with memq := memq : VmObject V }.layer := by
  rw [layers_set]
  exact ⟨layers_some hobj, update_self .., rfl, rfl, rfl, fun j hj => update_of_ne hj ..⟩

omit [Inhabited V] in
theorem wf_pages (hwf : h.WfIn held readOnly) (hobj : h.objects i = some obj) (memq : List (Page V)) :
    (h.set i { obj with memq := memq }).WfIn held readOnly := by
  unfold WfIn
  rw [copyOf_set_same hobj, refsOf_set_same hobj]
  · exact (setGet_pages hobj memq).wf hwf
  all_goals rfl

end

section

variable (hwf : h.WfIn held readOnly)
include hwf

section

variable (hobj : h.objects i = some obj)
include hobj

theorem insertPage_quiet (hnone : lookup obj.memq o = none) (hsees : Sees h.layers default i o d) :
    Quiet held readOnly h (h.insertPage i o d) := by
  rw [insertPage, modify_eq hobj]
  have hs := setGet_pages hobj (obj.memq ++ [⟨o, d⟩])
  refine ⟨wf_pages hwf hobj _, fun j n' hj => ?_, rfl⟩
  obtain ⟨n, hn, hsize, _⟩ := hs.back hj
  exact ⟨n, hn, hsize, fun x _ w hw =>
    Sees.fill hs.was hs.is (lookup_insert hnone) hs.below hs.offset hs.other hsees hw⟩

/-! ## Faults -/

theorem zeroPage_quiet (hsearch : h.search h.next i o = none) :
    Quiet held readOnly h (h.insertPage i o default) := by
  have hlive := isSome_layers hobj
  have hsees := sees_contents hwf hlive o
  unfold contents at hsees
  rw [hsearch] at hsees
  obtain ⟨k, hk⟩ := Nat.exists_eq_succ_of_ne_zero (Nat.ne_of_gt (Nat.zero_lt_of_lt (hwf.fresh i hlive)))
  rw [search_eq, hk] at hsearch
  exact insertPage_quiet hwf hobj (look_eq_none (layers_some hobj) hsearch) hsees

theorem readFault_quiet : Quiet held readOnly h (h.readFault i o) := by
  unfold readFault
  split
  next hsearch => exact zeroPage_quiet hwf hobj hsearch
  next => exact Quiet.refl hwf

theorem ownPage_quiet : Quiet held readOnly h (h.ownPage i o) ∧
      ∃ obj', (h.ownPage i o).objects i = some obj' ∧ (lookup obj'.memq o).isSome := by
  -- the page is there after it was inserted
  have hinserted : ∀ d, ∃ obj', (h.insertPage i o d).objects i = some obj' ∧
      (lookup obj'.memq o).isSome := by
    intro d
    rw [insertPage, modify_eq hobj]
    refine ⟨_, update_self .., ?_⟩
    rw [lookup_append, lookup_cons, if_pos rfl]
    cases lookup obj.memq o <;> rfl
  have hsees := sees_contents hwf (isSome_layers hobj) o
  unfold contents at hsees
  unfold ownPage
  cases hsearch : h.search h.next i o with
  | none => exact ⟨zeroPage_quiet hwf hobj hsearch, hinserted default⟩
  | some p =>
    obtain ⟨j, d⟩ := p
    rw [hsearch] at hsees
    rw [search_eq] at hsearch
    obtain ⟨rank, hr, _⟩ := hwf.ranked
    obtain ⟨_, ⟨rfl, hget⟩ | ⟨hji, hget⟩⟩ := look_eq_some (z := default) hr (layers_some hobj) hsearch
    · dsimp only
      rw [if_pos rfl]
      exact ⟨Quiet.refl hwf, obj, hobj, isSome_iff_exists.mpr ⟨d, hget⟩⟩
    · dsimp only
      rw [if_neg hji]
      have hq := insertPage_quiet hwf hobj hget hsees
      obtain ⟨hq', hstays⟩ := collapse_quiet hq.wf
      obtain ⟨obj1, hobj1, hpage⟩ := hinserted d
      obtain ⟨obj2, hobj2, hkeep⟩ := hstays obj1 hobj1
      obtain ⟨v, hv⟩ := isSome_iff_exists.mp hpage
      exact ⟨hq.trans hq', obj2, hobj2, isSome_iff_exists.mpr ⟨v, hkeep o v hv⟩⟩

theorem pushPage_quiet (hpage : lookup obj.memq o = some d) :
    Quiet held readOnly h (h.pushPage i o) ∧ (h.pushPage i o).objects i = some obj ∧
      ∀ c m, obj.copy = some c → (h.pushPage i o).layers c = some m → m.get o ≠ none := by
  unfold pushPage
  rw [hobj]
  dsimp only
  cases hc : obj.copy with
  | none => exact ⟨Quiet.refl hwf, hobj, nofun⟩
  | some c =>
    obtain ⟨l, m, hl, hm, hbelow, hoffset, hsize⟩ := hwf.copied i c (by rw [copyOf_some hobj, hc])
    obtain ⟨copyObject, hcopy, rfl⟩ := layers_eq_some hm
    have hoffset' : copyObject.shadowOffset = 0 := hoffset
    have hci : i ≠ c := hwf.below_ne hm hbelow
    dsimp only
    rw [hcopy]
    dsimp only
    rw [hoffset']
    cases hget : lookup copyObject.memq o with
    | some v =>
      refine ⟨Quiet.refl hwf, hobj, fun c' m' hc' hm' => ?_⟩
      cases hc'
      cases hm.symm.trans hm'
      change lookup copyObject.memq o ≠ none
      rw [hget]
      exact some_ne_none v
    | none =>
      rw [hpage]
      have hsees : Sees h.layers default c o d := by
        refine .under hm hget hbelow ?_
        rw [hoffset]
        exact .here (layers_some hobj) hpage
      refine ⟨insertPage_quiet hwf hcopy hget hsees, ?_, fun c' m' hc' hm' => ?_⟩
      · rw [insertPage, modify_eq hcopy]
        exact (update_of_ne hci ..).trans hobj
      · cases hc'
        rw [insertPage, modify_eq hcopy] at hm'
        cases (setGet_pages hcopy _).is.symm.trans hm'
        change lookup (copyObject.memq ++ [⟨o, d⟩]) o ≠ none
        rw [lookup_insert hget, update_self]
        exact some_ne_none d

theorem store_sees (hro : readOnly i = false) (hpage : (lookup obj.memq o).isSome)
    (hcover : ∀ c m, obj.copy = some c → h.layers c = some m → m.get o ≠ none) :
    (h.store i o d).WfIn held readOnly ∧ (h.store i o d).next = h.next ∧
      ∀ j n', (h.store i o d).layers j = some n' → j ≠ i → ∃ n, h.layers j = some n ∧ n'.size = n.size ∧
        ∀ x v, Sees h.layers default j x v → Sees (h.store i o d).layers default j x v := by
  rw [store, modify_eq hobj]
  have hs := setGet_pages hobj
    (obj.memq.map fun p => if p.offset = o then { p with data := d } else p)
  refine ⟨wf_pages hwf hobj _, rfl, fun j n' hj hji => ?_⟩
  obtain ⟨n, hn, hsize, _⟩ := hs.back hj
  refine ⟨n, hn, hsize, fun x w hw => ?_⟩
  refine Sees.write hs.was hs.is (lookup_store hpage) hs.below hs.offset hs.other ?_ hw fun he => absurd he hji
  -- whatever lies over the object is its copy
  intro k m y hk hbelow hy
  have hc := hwf.alone k m i hk hbelow hro
  obtain ⟨_, m', _, hm', _, hoffset, _⟩ := hwf.copied i k hc
  cases hk.symm.trans hm'
  rw [copyOf_some hobj] at hc
  rw [hoffset, Nat.add_zero] at hy
  exact hy ▸ hcover k m hc hk

theorem writeFault_sees (hro : readOnly i = false) (d : V) :
    (h.writeFault i o d).WfIn held readOnly ∧ (h.writeFault i o d).next = h.next ∧
      ∀ j n', (h.writeFault i o d).layers j = some n' → j ≠ i → ∃ n, h.layers j = some n ∧
        n'.size = n.size ∧
        ∀ x < n.size, ∀ v, Sees h.layers default j x v → Sees (h.writeFault i o d).layers default j x v := by
  obtain ⟨hq1, obj1, hobj1, hpage⟩ := ownPage_quiet hwf hobj
  obtain ⟨v, hv⟩ := isSome_iff_exists.mp hpage
  obtain ⟨hq2, hobj2, hcover⟩ := pushPage_quiet hq1.wf hobj1 hv
  have hq := hq1.trans hq2
  obtain ⟨hwf', hnext, hsees⟩ := store_sees hq.wf hobj2 hro hpage hcover
  refine ⟨hwf', hnext.trans hq.next, fun j n' hj hji => ?_⟩
  obtain ⟨n1, hn1, hsize1, hsees1⟩ := hsees j n' hj hji
  obtain ⟨n, hn, hsize, hsees0⟩ := hq.keeps j n1 hn1
  exact ⟨n, hn, hsize1.trans hsize, fun x hx w hw => hsees1 x w (hsees0 x hx w hw)⟩

end

end

end Heap

end Mach.Vm.Cow
