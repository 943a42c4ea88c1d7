import Mach.Vm.CowFault

/-!
# Copies are snapshots

A new copy object is empty and lies over the source, so it shows what the source shows; so
does an old copy object that is still empty. All other operations leave what a copy shows as
it is: an object that `vm_object_copy_delayed` has returned goes on showing what the source
showed at the time of the call.
-/

namespace Mach.Vm.Cow

open Lib Lib.Overlay Function Option Heap

variable {V : Type} [Inhabited V] {held : Nat → Nat} {readOnly : Nat → Bool}

namespace Heap

variable {h h' : Heap V} {i o : Nat} {obj : VmObject V} {d : V}

/-! ## New objects -/

/-- The object `i` was returned as a copy of `src`: it shows what the source has shown, and
all others what they have shown. -/
structure Copied (held : Nat → Nat) (readOnly : Nat → Bool) (h h' : Heap V) (src i : Nat) : Prop where
  wf : h'.WfIn (update held i (held i + 1)) (update readOnly i true)
  next : h.next ≤ h'.next
  lt : i < h'.next
  back : ∀ j n', h'.layers j = some n' → j < h.next → ∃ n, h.layers j = some n ∧ n'.size = n.size
  keeps : ∀ j x v, Sees h.layers default j x v → Sees h'.layers default j x v
  shows : ∀ x, Sees h'.layers default i x (h.contents src x)

theorem copied_of_inserted {src : Nat} {l l' : Layer V} (hwf : h.WfIn held readOnly)
    (hi : Inserted h.layers h'.layers h.copyOf src h.next l l') (hempty : ∀ x, l'.get x = none)
    (hnext : h'.next = h.next + 1)
    (hwf' : h'.WfIn (update held h.next (held h.next + 1)) (update readOnly h.next true)) :
    Copied held readOnly h h' src h.next := by
  have hkeeps : ∀ j x v, Sees h.layers default j x v → Sees h'.layers default j x v := by
    intro j x v hv
    refine Sees.insert hi.is hempty hi.below hi.offset (fun j m hm => ?_) hv
    obtain ⟨m', hm'⟩ := isSome_iff_exists.mp ((hi.toOver hwf).isSome hwf (by rw [hm]; rfl))
    refine ⟨m', hm', ?_⟩
    rw [hi.other j (hwf.ne_next (by rw [hm]; rfl)), hm, map_some] at hm'
    cases hm'
    by_cases hc : h.copyOf src = some j
    · obtain ⟨_, p, _, hp, hbelow, _⟩ := hwf.copied src j hc
      cases hm.symm.trans hp
      rw [if_pos hc]
      exact ⟨rfl, rfl, .inr ⟨hbelow, rfl⟩⟩
    · rw [if_neg hc]
      exact ⟨rfl, rfl, .inl rfl⟩
  refine ⟨hwf', by omega, by omega, fun j n' hj hlt => ?_, hkeeps, fun x => ?_⟩
  · obtain ⟨n, hn, hsize, _⟩ := (hi.toOver hwf).back hj hlt.ne
    exact ⟨n, hn, hsize⟩
  · refine .under hi.is (hempty x) hi.below ?_
    rw [hi.offset]
    exact hkeeps src x _ (sees_contents hwf (by rw [hi.source]; rfl) x)

def newCopy (size src refCount : Nat) : VmObject V :=
  { (VmObject.allocate size : VmObject V) with
    shadow := some src
    refCount := refCount }

omit [Inhabited V] in
theorem copyDelayed_cases {src : Nat} (heq : h.copyDelayed src = some (i, h')) :
    ∃ obj, h.objects src = some obj ∧ ((obj.copy = none ∧ i = h.next ∧
        h' = { (h.set src { obj with refCount := obj.refCount + 1, copy := some h.next }).set h.next
          (newCopy obj.size src 1) with next := h.next + 1 }) ∨
      ∃ old oldCopy, obj.copy = some old ∧ h.objects old = some oldCopy ∧
        ((oldCopy.memq = [] ∧ i = old ∧ h' = h.set old { oldCopy with refCount := oldCopy.refCount + 1 }) ∨
        (i = h.next ∧
          h' = { ((h.set src { obj with refCount := obj.refCount - 1 + 1, copy := some h.next }).set old
            { oldCopy with shadow := some h.next }).set h.next
              (newCopy obj.size src 2) with next := h.next + 1 }))) := by
  unfold copyDelayed at heq
  split at heq
  · cases heq
  rename_i obj hobj
  refine ⟨obj, hobj, ?_⟩
  split at heq
  next hcopy =>
    cases heq
    exact .inl ⟨hcopy, rfl, rfl⟩
  next old hcopy =>
    split at heq
    · cases heq
    rename_i oldCopy hold
    refine .inr ⟨old, oldCopy, hcopy, hold, ?_⟩
    split at heq
    next hempty =>
      cases heq
      exact .inl ⟨List.eq_nil_of_length_eq_zero hempty, rfl, rfl⟩
    next =>
      cases heq
      exact .inr ⟨rfl, rfl⟩

section

variable {src : Nat}

omit [Inhabited V] in
theorem copyOf_next (hwf : h.WfIn held readOnly) : h.copyOf h.next = none := by
  cases hobj : h.objects h.next with
  | none => rw [copyOf, hobj, bind_none]
  | some obj => cases hwf.next_eq_none.symm.trans (layers_some hobj)

section

variable (hwf : h.WfIn held readOnly) (hsrc : h.objects src = some obj)
include hwf hsrc

theorem copied_new {g : Heap V} {r n : Nat} (hL : g.layers = fun j => (h.layers j).map fun m =>
      if h.copyOf src = some j then { m with below := some h.next } else m)
    (hC : g.copyOf = update h.copyOf src (some h.next)) (hR : g.refsOf = update h.refsOf src r)
    (hn : 1 + (h.copyOf src).toFinset.card ≤ n) (hr : obj.refCount + 1 ≤ r + (h.copyOf src).toFinset.card) :
    Copied held readOnly h { g.set h.next (newCopy obj.size src n) with next := h.next + 1 } src h.next := by
  have hne : src ≠ h.next := hwf.ne_next (isSome_layers hsrc)
  have hL' := layers_set g h.next (newCopy obj.size src n)
  have hi : Inserted h.layers (g.set h.next (newCopy obj.size src n)).layers h.copyOf src h.next obj.layer
      (newCopy obj.size src n : VmObject V).layer := by
    rw [hL', hL]
    exact ⟨layers_some hsrc, update_self .., rfl, rfl, rfl, fun j hj => update_of_ne hj ..⟩
  refine copied_of_inserted hwf hi (fun _ => rfl) rfl ?_
  have hC' := copyOf_set g h.next (newCopy obj.size src n)
  have hR' := refsOf_set g h.next (newCopy obj.size src n)
  rw [hC] at hC'
  rw [hR] at hR'
  change Wf _ (g.set h.next _).copyOf (g.set h.next _).refsOf _ _ _
  rw [hC', hR']
  refine hi.wf hwf (fun j hj => ?_) ?_ ?_ ?_ fun j hj hjn => ?_
  · by_cases hjn : j = h.next
    · rw [hjn, update_self, copyOf_next hwf]
      rfl
    · rw [update_of_ne hjn, update_of_ne hj]
  · rw [update_of_ne hne, update_self]
  · rwa [update_self]
  · rwa [update_of_ne hne, update_self, refsOf_some hsrc]
  · rw [update_of_ne hjn, update_of_ne hj]

theorem copied_first (hcopy : obj.copy = none)
    (hh' : h' = { (h.set src { obj with refCount := obj.refCount + 1, copy := some h.next }).set
      h.next (newCopy obj.size src 1) with next := h.next + 1 }) :
    Copied held readOnly h h' src h.next := by
  have hc : h.copyOf src = none := (copyOf_some hsrc).trans hcopy
  subst hh'
  refine copied_new hwf hsrc ?_ (copyOf_set ..) (refsOf_set ..) ?_ ?_
  · refine Eq.trans (layers_set_same hsrc rfl) ?_
    simp only [hc, reduceCtorEq, if_false, map_id_fun']
    rfl
  · rw [hc]
    exact le_rfl
  · exact Nat.le_add_right ..

theorem copied_again {old : Nat} {oldCopy : VmObject V} (hcopy : obj.copy = some old)
    (hold : h.objects old = some oldCopy) (hempty : oldCopy.memq = [])
    (hh' : h' = h.set old { oldCopy with refCount := oldCopy.refCount + 1 }) :
    Copied held readOnly h h' src old := by
  have hlold := layers_some hold
  have hL' : h'.layers = h.layers := by
    rw [hh']
    exact layers_set_same hold rfl
  have hC' : h'.copyOf = h.copyOf := by
    rw [hh']
    exact copyOf_set_same hold rfl
  have hR' : h'.refsOf = update h.refsOf old (h.refsOf old + 1) := by
    rw [hh', refsOf_set, refsOf_some hold]
  have hnext : h'.next = h.next := by rw [hh']; rfl
  have hlive := isSome_layers hold
  obtain ⟨_, m, _, hm, hbelow, hoffset, _⟩ := hwf.copied src old ((copyOf_some hsrc).trans hcopy)
  cases hlold.symm.trans hm
  refine ⟨?_, by omega, ?_, fun j n' hj _ => ⟨n', hL' ▸ hj, rfl⟩, fun j x v hv => hL' ▸ hv, fun x => ?_⟩
  · unfold WfIn
    rw [hL', hC', hnext]
    exact hwf.reuse hlive hR'
  · have := hwf.fresh old hlive
    omega
  · rw [hL']
    have hnone : oldCopy.layer.get x = none := by
      change lookup oldCopy.memq x = none
      rw [hempty]
      rfl
    refine .under hlold hnone hbelow ?_
    rw [hoffset]
    exact sees_contents hwf (isSome_layers hsrc) x

theorem copied_between {old : Nat} {oldCopy : VmObject V} (hcopy : obj.copy = some old)
    (hold : h.objects old = some oldCopy)
    (hh' : h' = { ((h.set src { obj with refCount := obj.refCount - 1 + 1, copy := some h.next }).set
      old { oldCopy with shadow := some h.next }).set h.next (newCopy obj.size src 2) with
      next := h.next + 1 }) :
    Copied held readOnly h h' src h.next := by
  have hc : h.copyOf src = some old := (copyOf_some hsrc).trans hcopy
  obtain ⟨_, m, _, hm, hbelow, _, _⟩ := hwf.copied src old hc
  have hso : src ≠ old := hwf.below_ne hm hbelow
  have hold' : (h.set src { obj with refCount := obj.refCount - 1 + 1, copy := some h.next }).objects old =
      some oldCopy := (update_of_ne hso.symm ..).trans hold
  subst hh'
  refine copied_new hwf hsrc ?_ (Eq.trans (copyOf_set_same hold' rfl) (copyOf_set ..))
    (Eq.trans (refsOf_set_same hold' rfl) (refsOf_set ..)) ?_ ?_
  · refine (layers_set ..).trans (funext fun j => ?_)
    rw [layers_set_same hsrc (by rfl), hc]
    by_cases hjo : j = old
    · rw [hjo, update_self, layers_some hold, map_some, if_pos rfl]
      rfl
    · rw [update_of_ne hjo]
      have hne : some old ≠ some j := fun he => hjo (Option.some.inj he).symm
      simp only [if_neg hne, map_id_fun']
      rfl
  · rw [hc]
    exact le_rfl
  · rw [hc]
    change obj.refCount + 1 ≤ obj.refCount - 1 + 1 + 1
    omega

end

theorem copyDelayed_copied (hwf : h.WfIn held readOnly) (heq : h.copyDelayed src = some (i, h')) :
    Copied held readOnly h h' src i := by
  obtain ⟨obj, hobj, ⟨hcopy, rfl, hh'⟩ | ⟨old, oldCopy, hcopy, hold, ⟨hempty, rfl, hh'⟩ | ⟨rfl, hh'⟩⟩⟩ :=
    copyDelayed_cases heq
  · exact copied_first hwf hobj hcopy hh'
  · exact copied_again hwf hobj hcopy hold hempty hh'
  · exact copied_between hwf hobj hcopy hold hh'

end

omit [Inhabited V] in
theorem shadow_wf {source offset length : Nat} (hwf : h.WfIn held readOnly)
    (hobj : h.objects source = some obj) (hheld : 0 < held source) (hro : readOnly source = true)
    (hwin : offset + length ≤ obj.size) :
    (h.shadow source offset length).2.WfIn (update (update held source (held source - 1)) h.next 1)
      (update readOnly h.next false) ∧
    ∀ j, j ≠ h.next → (h.shadow source offset length).2.layers j = h.layers j := by
  have hL' : (h.shadow source offset length).2.layers = update h.layers h.next _ := layers_set ..
  have hC' : (h.shadow source offset length).2.copyOf = update h.copyOf h.next _ := copyOf_set ..
  have hR' : (h.shadow source offset length).2.refsOf = update h.refsOf h.next _ := refsOf_set ..
  have hother : ∀ j, j ≠ h.next → (h.shadow source offset length).2.layers j = h.layers j := by
    intro j hj
    rw [hL', update_of_ne hj]
  refine ⟨hwf.shadow (layers_some hobj) hheld hro (by rw [hL']; exact update_self ..) rfl ?_ hother
    ?_ (fun j hj => ?_) ?_ fun j hj => ?_, hother⟩
  · change length + offset ≤ obj.size
    omega
  · rw [hC', update_self]
    rfl
  · rw [hC', update_of_ne hj]
  · rw [hR', update_self]
    exact Nat.le_refl 1
  · rw [hR', update_of_ne hj]

end Heap

/-! ## Runs -/

/-- The objects before any was copied: shadow chains go down and stay inside the objects
below, nothing lies over what may be written, and every reference is counted. -/
structure Sys.Init (s : Sys V) : Prop where
  down : ∀ i obj j, s.heap.objects i = some obj → obj.shadow = some j →
    j < i ∧ ∃ below, s.heap.objects j = some below ∧ obj.size + obj.shadowOffset ≤ below.size ∧
      s.readOnly j = true
  fresh : ∀ i obj, s.heap.objects i = some obj → i < s.heap.next
  uncopied : ∀ i obj, s.heap.objects i = some obj → obj.copy = none
  counted : ∀ i obj, s.heap.objects i = some obj →
    s.held i + (shadowers s.heap.layers s.heap.next i).card ≤ obj.refCount
  live : ∀ i, 0 < s.held i → (s.heap.objects i).isSome
  snapshots : s.snapshots = []

def lts (V : Type) [Inhabited V] : Lts (Sys V) (Action V) where
  init := Sys.Init
  step := step

def Shows (L : Layers V) (i : Nat) (f : Nat → V) : Prop :=
  ∀ l, L i = some l → ∀ o < l.size, Sees L default i o (f o)

theorem Shows.keeps {L L' : Layers V} {i : Nat} {f : Nat → V} (h : Shows L i f) (hk : Keeps L L') :
    Shows L' i f := by
  intro l' hl' o ho
  obtain ⟨l, hl, hsize, hsees⟩ := hk i l' hl'
  exact hsees o (hsize ▸ ho) _ (h l hl o (hsize ▸ ho))

structure Inv (s : Sys V) : Prop where
  wf : s.heap.WfIn s.held s.readOnly
  snapshots : ∀ p ∈ s.snapshots, p.1 < s.heap.next ∧ s.readOnly p.1 = true ∧ Shows s.heap.layers p.1 p.2

theorem Inv.init {s : Sys V} (h : s.Init) : Inv s := by
  have hcopy : ∀ i, s.heap.copyOf i = none := by
    intro i
    cases hobj : s.heap.objects i with
    | none => rw [Heap.copyOf, hobj, bind_none]
    | some obj => rw [copyOf_some hobj, h.uncopied i obj hobj]
  have hobject : ∀ {i}, (s.heap.layers i).isSome → ∃ obj, s.heap.objects i = some obj := by
    intro i hi
    obtain ⟨l, hl⟩ := isSome_iff_exists.mp hi
    obtain ⟨obj, hobj, _⟩ := layers_eq_some hl
    exact ⟨obj, hobj⟩
  have hfresh : ∀ i, (s.heap.layers i).isSome → i < s.heap.next := by
    intro i hi
    obtain ⟨obj, hobj⟩ := hobject hi
    exact h.fresh i obj hobj
  refine ⟨⟨⟨id, ⟨fun hl hb => ?_, fun hl hb => ?_⟩, hfresh⟩, hfresh, fun hl hb hm => ?_,
    fun i c hc => ?_, fun i l w hl hw hro => ?_, fun i hi => ?_, fun i hi => ?_⟩, fun p hp => ?_⟩
  · obtain ⟨obj, hobj, rfl⟩ := layers_eq_some hl
    obtain ⟨_, below, hbelow, _⟩ := h.down _ obj _ hobj hb
    exact isSome_layers hbelow
  · obtain ⟨obj, hobj, rfl⟩ := layers_eq_some hl
    exact (h.down _ obj _ hobj hb).1
  · obtain ⟨obj, hobj, rfl⟩ := layers_eq_some hl
    obtain ⟨_, below, hbelow, hwin, _⟩ := h.down _ obj _ hobj hb
    cases (layers_some hbelow).symm.trans hm
    exact hwin
  · cases (hcopy i).symm.trans hc
  · obtain ⟨obj, hobj, rfl⟩ := layers_eq_some hl
    obtain ⟨_, _, _, _, hro'⟩ := h.down _ obj _ hobj hw
    cases hro.symm.trans hro'
  · obtain ⟨obj, hobj⟩ := hobject hi
    rw [refsOf_some hobj]
    exact h.counted i obj hobj
  · obtain ⟨obj, hobj⟩ := isSome_iff_exists.mp (h.live i hi)
    exact isSome_layers hobj
  · rw [h.snapshots] at hp
    cases hp

theorem Inv.exists_obj {s : Sys V} (h : Inv s) {i : Nat} (hi : 0 < s.held i) :
    ∃ obj, s.heap.objects i = some obj := by
  obtain ⟨l, hl⟩ := isSome_iff_exists.mp (h.wf.live i hi)
  obtain ⟨obj, hobj, _⟩ := layers_eq_some hl
  exact ⟨obj, hobj⟩

theorem Inv.quiet {s : Sys V} {heap : Heap V} (h : Inv s) (hq : Heap.Quiet s.held s.readOnly s.heap heap) :
    Inv { s with heap := heap } := by
  refine ⟨hq.wf, fun p hp => ?_⟩
  obtain ⟨hlt, hro, hshows⟩ := h.snapshots p hp
  exact ⟨hq.next ▸ hlt, hro, hshows.keeps hq.keeps⟩

theorem Inv.step {s s' : Sys V} (h : Inv s) (a : Action V) (heq : step s a = some s') : Inv s' := by
  cases a with
  | copyDelayed src =>
    obtain ⟨-, heq⟩ := ite_none_right_eq_some.mp heq
    obtain ⟨⟨i, heap⟩, hcopy, rfl⟩ := map_eq_some_iff.mp heq
    have hc := copyDelayed_copied h.wf hcopy
    refine ⟨hc.wf, fun p hp => ?_⟩
    rcases List.mem_cons.mp hp with rfl | hp'
    · exact ⟨hc.lt, update_self .., fun _ _ x _ => hc.shows x⟩
    · obtain ⟨hlt, hro, hshows⟩ := h.snapshots p hp'
      refine ⟨hlt.trans_le hc.next, ?_, fun l' hl' x hx => ?_⟩
      · by_cases hpi : p.1 = i
        · exact hpi ▸ update_self ..
        · exact (update_of_ne hpi ..).trans hro
      · obtain ⟨l, hl, hsize⟩ := hc.back p.1 l' hl' hlt
        exact hc.keeps p.1 x _ (hshows l hl x (hsize ▸ hx))
  | write object offset data =>
    obtain ⟨hok, ⟨⟩⟩ := ite_none_right_eq_some.mp heq
    obtain ⟨obj, hobj⟩ := h.exists_obj hok.1
    obtain ⟨hwf, hnext, hsees⟩ := writeFault_sees h.wf hobj hok.2 data
    refine ⟨hwf, fun p hp => ?_⟩
    obtain ⟨hlt, hro, hshows⟩ := h.snapshots p hp
    refine ⟨hnext ▸ hlt, hro, fun l' hl' x hx => ?_⟩
    -- a snapshot is not what was written
    have hpi : p.1 ≠ object := by
      intro hpi
      rw [hpi, hok.2] at hro
      cases hro
    obtain ⟨l, hl, hsize, hkeep⟩ := hsees p.1 l' hl' hpi
    exact hkeep x (hsize ▸ hx) _ (hshows l hl x (hsize ▸ hx))
  | shortage object offset =>
    obtain ⟨hok, ⟨⟩⟩ := ite_none_right_eq_some.mp heq
    obtain ⟨obj, hobj⟩ := h.exists_obj hok.1
    exact h.quiet (ownPage_quiet h.wf hobj).1
  | read object offset =>
    obtain ⟨hok, ⟨⟩⟩ := ite_none_right_eq_some.mp heq
    obtain ⟨obj, hobj⟩ := h.exists_obj hok
    exact h.quiet (readFault_quiet h.wf hobj)
  | shadow source offset length =>
    rw [Cow.step] at heq
    split at heq
    · cases heq
    rename_i obj hobj
    obtain ⟨hok, ⟨⟩⟩ := ite_none_right_eq_some.mp heq
    obtain ⟨hwf, hother⟩ := shadow_wf h.wf hobj hok.1 hok.2.1 hok.2.2
    refine ⟨hwf, fun p hp => ?_⟩
    obtain ⟨hlt, hro, hshows⟩ := h.snapshots p hp
    have hpn : p.1 ≠ s.heap.next := Nat.ne_of_lt hlt
    refine ⟨Nat.lt_succ_of_lt hlt, (update_of_ne hpn ..).trans hro, fun l' hl' x hx => ?_⟩
    have hl := (hother p.1 hpn).symm.trans hl'
    refine Sees.mono (fun j m hm => ?_) (hshows l' hl x hx)
    exact (hother j (h.wf.ne_next (by rw [hm]; rfl))).trans hm
  | collapse object =>
    cases heq
    exact h.quiet (collapse_quiet h.wf).1

/-- **Copies are snapshots.** In every run of copies, writes, faults, shadows and collapses,
an object that `vm_object_copy_delayed` has returned is there as long as it is referred to,
and what one finds by following the shadow chain from it is what one found in the source at
the time of the call. -/
theorem snapshots_kept {s : Sys V} (hs : (lts V).Reach anyStep s) :
    ∀ p ∈ s.snapshots, (0 < s.held p.1 → (s.heap.objects p.1).isSome) ∧
      ∀ obj, s.heap.objects p.1 = some obj → ∀ o < obj.size, s.heap.contents p.1 o = p.2 o := by
  have hinv : Inv s := hs.inv (I := Inv) (fun s h => Inv.init h) fun s a s' h _ heq => h.step a heq
  intro p hp
  refine ⟨fun hheld => ?_, fun obj hobj o ho => ?_⟩
  · obtain ⟨obj, hobj⟩ := hinv.exists_obj hheld
    rw [hobj]
    rfl
  · obtain ⟨_, _, hshows⟩ := hinv.snapshots p hp
    have hl := layers_some hobj
    exact (sees_contents hinv.wf (isSome_layers hobj) o).unique (hshows _ hl o ho)

def twoPages : Sys Nat where
  heap :=
    { objects := update (fun _ => none) 0
        (some { (VmObject.allocate 2 : VmObject Nat) with memq := [⟨0, 10⟩, ⟨1, 11⟩] })
      next := 1 }
  held := update (fun _ => 0) 0 1
  readOnly := fun _ => false
  snapshots := []

theorem twoPages_init : twoPages.Init := by
  have honly : ∀ i obj, twoPages.heap.objects i = some obj →
      i = 0 ∧ obj = { (VmObject.allocate 2 : VmObject Nat) with memq := [⟨0, 10⟩, ⟨1, 11⟩] } := by
    intro i obj hobj
    by_cases hi : i = 0
    · subst hi
      cases hobj
      exact ⟨rfl, rfl⟩
    · have hnone : twoPages.heap.objects i = none := by
        simp only [twoPages, update_of_ne hi]
      cases hnone.symm.trans hobj
  refine ⟨fun i obj j hobj hj => ?_, fun i obj hobj => ?_, fun i obj hobj => ?_, fun i obj hobj => ?_,
    fun i hi => ?_, rfl⟩
  · obtain ⟨_, rfl⟩ := honly i obj hobj
    cases hj
  · obtain ⟨rfl, _⟩ := honly i obj hobj
    exact Nat.zero_lt_one
  · obtain ⟨_, rfl⟩ := honly i obj hobj
    rfl
  · obtain ⟨rfl, rfl⟩ := honly i obj hobj
    decide
  · by_cases h0 : i = 0
    · subst h0
      rfl
    · have hzero : twoPages.held i = 0 := by
        simp only [twoPages, update_of_ne h0]
      omega

/-- It is copied, written, copied again and written again; the first copy is mapped and
written too, and its chain is collapsed. -/
theorem snapshots_kept_twoPages :
    ∃ s, (lts Nat).run twoPages [.copyDelayed 0, .write 0 0 99, .copyDelayed 0, .write 0 1 77,
        .shadow 1 0 2, .write 3 1 55, .collapse 3] = some s ∧
      s.snapshots.map (fun p => (p.1, p.2 0, p.2 1)) = [(2, 99, 11), (1, 10, 11)] ∧
      ∀ p ∈ s.snapshots, ∀ obj, s.heap.objects p.1 = some obj → ∀ o < obj.size,
        s.heap.contents p.1 o = p.2 o := by
  have hsnap : ((lts Nat).run twoPages [.copyDelayed 0, .write 0 0 99, .copyDelayed 0, .write 0 1 77,
      .shadow 1 0 2, .write 3 1 55, .collapse 3]).map
        (fun s => s.snapshots.map fun p => (p.1, p.2 0, p.2 1)) = some [(2, 99, 11), (1, 10, 11)] := by
    decide
  obtain ⟨s, hrun, hs⟩ := map_eq_some_iff.mp hsnap
  refine ⟨s, hrun, hs, fun p hp obj hobj o ho => ?_⟩
  exact (snapshots_kept (.run _ (.start twoPages_init) (Lts.okRun_any _ _ _) hrun) p hp).2 obj hobj o ho

end Mach.Vm.Cow
