import Mach.Vm.CowInv

/-!
# Nobody notices a collapse

A change of the heap is `Quiet` when the heap is well formed after it and whatever is still
there shows what it has shown. One turn of `vm_object_collapse` is, whether it merges the
backing object or goes past it; so the whole loop is. The loop also ends by itself: the
object lies over something lower after each turn.
-/

namespace Mach.Vm.Cow

open Lib Lib.Overlay Function Option

section

variable {V : Type} [Inhabited V] {L L' : Layers V}

def Keeps (L L' : Layers V) : Prop :=
  ∀ i l', L' i = some l' → ∃ l, L i = some l ∧ l'.size = l.size ∧
    ∀ o < l.size, ∀ v, Sees L default i o v → Sees L' default i o v

theorem Keeps.refl (L : Layers V) : Keeps L L := fun _ l' hl' => ⟨l', hl', rfl, fun _ _ _ h => h⟩

theorem Keeps.trans {L1 L2 L3 : Layers V} (h : Keeps L1 L2) (h' : Keeps L2 L3) : Keeps L1 L3 := by
  intro i l3 hl3
  obtain ⟨l2, hl2, hsize', hsees'⟩ := h' i l3 hl3
  obtain ⟨l1, hl1, hsize, hsees⟩ := h i l2 hl2
  exact ⟨l1, hl1, hsize'.trans hsize, fun o ho v hv => hsees' o (hsize ▸ ho) v (hsees o ho v hv)⟩

theorem Past.keeps {rank : Nat → Nat} {i b : Nat} {l l' m : Layer V} (hp : Past L L' i b l l' m)
    (hr : Ranked L rank) (hw : Windowed L)
    (hget : ∀ o < l.size, l'.get o = (l.get o).or (m.get (o + l.offset)))
    (hgone : (L' b = none ∧ ∀ j n, L j = some n → n.below = some b → j = i) ∨ L' b = L b) :
    Keeps L L' := by
  intro j n' hj
  have hkeep : ∀ n, L j = some n → ∀ o < n.size, ∀ v, Sees L default j o v → Sees L' default j o v := by
    intro n hn o ho v hv
    have hpast := Sees.past hr hw hp.was hp.below hp.backing hp.is hp.below' hp.offset hget hp.other hgone hv
    exact (hpast n hn ho).1 (by rw [hj]; rfl)
  rcases hp.cases (hgone.imp_left And.left) hj with ⟨rfl, rfl⟩ | ⟨-, hn⟩
  · exact ⟨l, hp.was, hp.size, hkeep l hp.was⟩
  · exact ⟨n', hn, rfl, hkeep n' hn⟩

end

namespace Heap

variable {V : Type} {held : Nat → Nat} {readOnly : Nat → Bool} {h h' : Heap V} {i : Nat}

abbrev WfIn (h : Heap V) (held : Nat → Nat) (readOnly : Nat → Bool) : Prop :=
  Wf h.layers h.copyOf h.refsOf h.next held readOnly

structure Quiet [Inhabited V] (held : Nat → Nat) (readOnly : Nat → Bool) (h h' : Heap V) : Prop where
  wf : h'.WfIn held readOnly
  keeps : Keeps h.layers h'.layers
  next : h'.next = h.next

theorem Quiet.refl [Inhabited V] (hwf : h.WfIn held readOnly) : Quiet held readOnly h h :=
  ⟨hwf, Keeps.refl _, rfl⟩

theorem Quiet.trans [Inhabited V] {h1 h2 h3 : Heap V} (h : Quiet held readOnly h1 h2)
    (h' : Quiet held readOnly h2 h3) : Quiet held readOnly h1 h3 :=
  ⟨h'.wf, h.keeps.trans h'.keeps, h'.next.trans h.next⟩

def Stays (h h' : Heap V) (i : Nat) : Prop :=
  ∀ obj, h.objects i = some obj → ∃ obj', h'.objects i = some obj' ∧
    ∀ x v, lookup obj.memq x = some v → lookup obj'.memq x = some v

theorem Stays.refl (h : Heap V) (i : Nat) : Stays h h i := fun obj hobj => ⟨obj, hobj, fun _ _ hx => hx⟩

theorem Stays.trans {h1 h2 h3 : Heap V} (h : Stays h1 h2 i) (h' : Stays h2 h3 i) : Stays h1 h3 i := by
  intro obj hobj
  obtain ⟨obj2, hobj2, hkeep⟩ := h obj hobj
  obtain ⟨obj3, hobj3, hkeep'⟩ := h' obj2 hobj2
  exact ⟨obj3, hobj3, fun x v hx => hkeep' x v (hkeep x v hx)⟩

/-! ## One turn -/

def wentDown (obj backing : VmObject V) (memq : List (Page V)) : VmObject V :=
  { obj with
    memq := memq
    shadow := backing.shadow
    shadowOffset := obj.shadowOffset + backing.shadowOffset }

def leftBehind (backing : VmObject V) (i : Nat) : VmObject V :=
  { backing with
    copy := if backing.copy = some i then none else backing.copy
    refCount := backing.refCount - 1 }

theorem some_reference (h : Heap V) (r : Option Nat) : some (h.reference r) = match r with
    | none => some h
    | some r => some (h.modify r fun obj => { obj with refCount := obj.refCount + 1 }) := by
  cases r <;> rfl

theorem collapseOnce_cases (heq : h.collapseOnce i = some h') :
    ∃ obj b backing, h.objects i = some obj ∧ obj.shadow = some b ∧ h.objects b = some backing ∧
      h.isCopyObject backing = false ∧
      ((backing.refCount = 1 ∧ h' = (h.set i (wentDown obj backing
          (moveUp obj.shadowOffset obj.size obj.memq backing.memq))).remove b) ∨
      (backing.memq.any (stillNeeded obj.shadowOffset obj.size obj.memq) = false ∧
        h' = ((h.set i (wentDown obj backing obj.memq)).set b (leftBehind backing i)).reference
          backing.shadow)) := by
  unfold collapseOnce at heq
  split at heq
  · cases heq
  rename_i obj hobj
  split at heq
  · cases heq
  rename_i b hshadow
  split at heq
  · cases heq
  rename_i backing hbacking
  obtain ⟨-, heq⟩ := ite_none_left_eq_some.mp heq
  obtain ⟨hc, heq⟩ := ite_none_left_eq_some.mp heq
  refine ⟨obj, b, backing, hobj, hshadow, hbacking, (Bool.not_eq_true _).mp hc, ?_⟩
  split at heq
  next hone => exact .inl ⟨hone, (Option.some.inj heq).symm⟩
  next =>
    obtain ⟨hneeded, heq⟩ := ite_none_left_eq_some.mp heq
    refine .inr ⟨(Bool.not_eq_true _).mp hneeded, ?_⟩
    exact (Option.some.inj ((some_reference _ backing.shadow).trans heq)).symm

theorem copyOf_of_isCopyObject {backing : VmObject V} (hc : h.isCopyObject backing = false) (r : Nat)
    (hr : backing.shadow = some r) : h.copyOf r = none := by
  unfold isCopyObject at hc
  rw [hr] at hc
  dsimp only at hc
  cases hobj : h.objects r with
  | none => rw [copyOf, hobj, bind_none]
  | some obj =>
    rw [hobj] at hc
    have hnone : obj.copy.isSome = false := hc
    rw [copyOf_some hobj]
    exact isSome_eq_false_iff.mp hnone |> isNone_iff_eq_none.mp

section

variable {obj backing : VmObject V} {b : Nat} {memq : List (Page V)} (hwf : h.WfIn held readOnly)
  (hobj : h.objects i = some obj) (hshadow : obj.shadow = some b)
  (hbacking : h.objects b = some backing)

include hwf hobj hshadow hbacking

theorem turn_past {m : Option (Layer V)}
    (hL : h'.layers = update (update h.layers i (some (wentDown obj backing memq).layer)) b m) :
    Past h.layers h'.layers i b obj.layer (wentDown obj backing memq).layer backing.layer ∧
      h'.layers b = m := by
  have hbi : b ≠ i := hwf.below_ne (layers_some hobj) hshadow
  rw [hL]
  refine ⟨⟨layers_some hobj, hshadow, layers_some hbacking, ?_, rfl, rfl, rfl, fun j hji hjb => ?_⟩,
    update_self ..⟩
  · rw [update_of_ne hbi.symm, update_self]
  · rw [update_of_ne hjb, update_of_ne hji]

variable [Inhabited V]

theorem merge_quiet (hc : h.isCopyObject backing = false) (hone : backing.refCount = 1)
    (hmemq : memq = moveUp obj.shadowOffset obj.size obj.memq backing.memq)
    (hh' : h' = (h.set i (wentDown obj backing memq)).remove b) : Quiet held readOnly h h' := by
  obtain ⟨hp, hgone⟩ := turn_past hwf hobj hshadow hbacking
    (by rw [hh', layers_remove, layers_set] : h'.layers = _)
  have hrefs : h.refsOf b = 1 := by rw [refsOf_some hbacking, hone]
  have hnext : h'.next = h.next := by rw [hh']; rfl
  obtain ⟨rank, hr, _⟩ := hwf.ranked
  refine ⟨?_, hp.keeps hr hwf.windowed (fun o ho => ?_) (.inl ⟨hgone, (hwf.only hp.was hp.below hrefs).2⟩), hnext⟩
  · unfold WfIn
    rw [hnext]
    refine hp.merge hwf hgone hrefs (copyOf_of_isCopyObject hc) (fun j hjb => ?_) ?_ fun j hjb => ?_
    · rw [hh', copyOf_remove, update_of_ne hjb, copyOf_set_same hobj]
      rfl
    · rw [hh', copyOf_remove, update_self]
    · rw [hh', refsOf_remove, update_of_ne hjb, refsOf_set_same hobj]
      rfl
  · change lookup memq o = (lookup obj.memq o).or (lookup backing.memq (o + obj.shadowOffset))
    rw [hmemq]
    exact lookup_moveUp ho backing.memq obj.memq

theorem bypass_quiet (hc : h.isCopyObject backing = false)
    (hneeded : backing.memq.any (stillNeeded obj.shadowOffset obj.size obj.memq) = false)
    (hh' : h' = ((h.set i (wentDown obj backing obj.memq)).set b (leftBehind backing i)).reference
      backing.shadow) : Quiet held readOnly h h' := by
  have hm := layers_some hbacking
  obtain ⟨hp, hb⟩ := turn_past hwf hobj hshadow hbacking
    (by rw [hh', layers_reference, layers_set, layers_set] : h'.layers = _)
  have hsame : h'.layers b = h.layers b := hb.trans hm.symm
  have hnext : h'.next = h.next := by rw [hh', next_reference]; rfl
  obtain ⟨rank, hr, _⟩ := hwf.ranked
  refine ⟨?_, hp.keeps hr hwf.windowed (fun o ho => lookup_or_of_notNeeded ho hneeded) (.inr hsame), hnext⟩
  unfold WfIn
  rw [hnext]
  have hcopy : h'.copyOf = update h.copyOf b (leftBehind backing i).copy := by
    rw [hh', copyOf_reference, copyOf_set, copyOf_set_same hobj]
    rfl
  have hlive : ∀ j, backing.shadow = some j →
      (((h.set i (wentDown obj backing obj.memq)).set b (leftBehind backing i)).layers j).isSome := by
    intro j hj
    rw [← layers_reference _ backing.shadow, ← hh']
    exact (hp.ranked hr (.inr hsame)).live (hsame.trans hm) hj
  have hrefs : ∀ j, h'.refsOf j = update h.refsOf b (backing.refCount - 1) j +
      if backing.shadow = some j then 1 else 0 := by
    intro j
    rw [hh', refsOf_reference hlive, refsOf_set, refsOf_set_same hobj]
    all_goals rfl
  refine hp.bypass hwf hsame (copyOf_of_isCopyObject hc) (fun j hjb => ?_) ?_ ?_ fun j hjb => ?_
  · rw [hcopy, update_of_ne hjb]
  · rw [hcopy, update_self, copyOf_some hbacking]
    rfl
  · have hself : backing.shadow ≠ some b := fun hsh => hwf.below_ne hm hsh rfl
    rw [hrefs b, if_neg hself, update_self, refsOf_some hbacking, Nat.add_zero]
  · rw [hrefs j, update_of_ne hjb]
    exact le_rfl

end

variable [Inhabited V]

theorem collapseOnce_quiet (hwf : h.WfIn held readOnly) (heq : h.collapseOnce i = some h') :
    Quiet held readOnly h h' := by
  obtain ⟨obj, b, backing, hobj, hshadow, hbacking, hc, ⟨hone, hh'⟩ | ⟨hneeded, hh'⟩⟩ :=
    collapseOnce_cases heq
  · exact merge_quiet hwf hobj hshadow hbacking hc hone rfl hh'
  · exact bypass_quiet hwf hobj hshadow hbacking hc hneeded hh'

omit [Inhabited V] in
theorem collapseOnce_stays (hwf : h.WfIn held readOnly) (heq : h.collapseOnce i = some h') :
    Stays h h' i := by
  obtain ⟨obj, b, backing, hobj, hshadow, hbacking, hc, hcases⟩ := collapseOnce_cases heq
  have hbi : b ≠ i := hwf.below_ne (layers_some hobj) hshadow
  intro obj' hobj'
  cases hobj.symm.trans hobj'
  rcases hcases with ⟨_, hh'⟩ | ⟨_, hh'⟩
  · refine ⟨wentDown obj backing (moveUp obj.shadowOffset obj.size obj.memq backing.memq), ?_,
      fun x v hx => lookup_moveUp_of_some backing.memq obj.memq hx⟩
    rw [hh']
    simp only [remove, set, update_of_ne hbi.symm, update_self]
  · refine ⟨wentDown obj backing obj.memq, ?_, fun _ _ hx => hx⟩
    obtain ⟨rank, hr, _⟩ := hwf.ranked
    have hri : backing.shadow ≠ some i := by
      intro hri
      have h1 := hr.lt (layers_some hobj) hshadow
      have h2 := hr.lt (layers_some hbacking) hri
      omega
    rw [hh', objects_reference hri]
    simp only [set, update_of_ne hbi.symm, update_self]

/-! ## The loop -/

theorem collapseLoop_quiet : ∀ {k : Nat} {h : Heap V}, h.WfIn held readOnly →
    Quiet held readOnly h (collapseLoop i k h) ∧ Stays h (collapseLoop i k h) i
  | 0, h, hwf => ⟨Quiet.refl hwf, Stays.refl h i⟩
  | k + 1, h, hwf => by
    rw [collapseLoop]
    split
    next => exact ⟨Quiet.refl hwf, Stays.refl h i⟩
    next h1 heq =>
      have hq := collapseOnce_quiet hwf heq
      obtain ⟨hq', hs'⟩ := collapseLoop_quiet hq.wf
      exact ⟨hq.trans hq', (collapseOnce_stays hwf heq).trans hs'⟩

theorem collapse_quiet (hwf : h.WfIn held readOnly) :
    Quiet held readOnly h (h.collapse i) ∧ Stays h (h.collapse i) i := collapseLoop_quiet hwf

end Heap

end Mach.Vm.Cow
