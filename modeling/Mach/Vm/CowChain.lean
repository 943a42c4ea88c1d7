import Mach.Vm.CowObject

/-!
# Shadow chains as layers

An object is a layer over the object that it shadows. Which objects are copies of which and
how often they are referred to is kept apart from that: `layers`, `copyOf` and `refsOf` say
all that matters of a heap, and each operation is described by what it does to the three.
-/

namespace Mach.Vm.Cow

open Lib Lib.Overlay Function List Option VmObject

variable {V : Type} {h : Heap V} {i : Nat} {obj : VmObject V}

def VmObject.layer (obj : VmObject V) : Layer V where
  get := lookup obj.memq
  size := obj.size
  below := obj.shadow
  offset := obj.shadowOffset

namespace Heap

def layers (h : Heap V) : Layers V := fun i => (h.objects i).map VmObject.layer

def copyOf (h : Heap V) (i : Nat) : Option Nat := (h.objects i).bind VmObject.copy

def refsOf (h : Heap V) (i : Nat) : Nat := ((h.objects i).map VmObject.refCount).getD 0

theorem layers_some (hobj : h.objects i = some obj) : h.layers i = some obj.layer := by
  rw [layers, hobj]
  rfl

theorem isSome_layers (hobj : h.objects i = some obj) : (h.layers i).isSome := by
  rw [layers_some hobj]
  rfl

theorem layers_eq_some {l : Layer V} (hl : h.layers i = some l) :
    ∃ obj, h.objects i = some obj ∧ obj.layer = l := map_eq_some_iff.mp hl

theorem layers_set (h : Heap V) (i : Nat) (obj : VmObject V) :
    (h.set i obj).layers = update h.layers i (some obj.layer) :=
  comp_update (Option.map layer) ..

theorem copyOf_set (h : Heap V) (i : Nat) (obj : VmObject V) :
    (h.set i obj).copyOf = update h.copyOf i obj.copy :=
  comp_update (fun o : Option (VmObject V) => o.bind copy) ..

theorem refsOf_set (h : Heap V) (i : Nat) (obj : VmObject V) :
    (h.set i obj).refsOf = update h.refsOf i obj.refCount :=
  comp_update (fun o : Option (VmObject V) => (o.map refCount).getD 0) ..

theorem copyOf_some (hobj : h.objects i = some obj) : h.copyOf i = obj.copy := by
  rw [copyOf, hobj]
  rfl

theorem refsOf_some (hobj : h.objects i = some obj) : h.refsOf i = obj.refCount := by
  rw [refsOf, hobj]
  rfl

variable {obj' : VmObject V}

section

variable (hobj : h.objects i = some obj)
include hobj

theorem layers_set_same (hl : obj'.layer = obj.layer) : (h.set i obj').layers = h.layers := by
  rw [layers_set, hl, ← layers_some hobj, update_eq_self]

theorem copyOf_set_same (hc : obj'.copy = obj.copy) : (h.set i obj').copyOf = h.copyOf := by
  rw [copyOf_set, hc, ← copyOf_some hobj, update_eq_self]

theorem refsOf_set_same (hr : obj'.refCount = obj.refCount) : (h.set i obj').refsOf = h.refsOf := by
  rw [refsOf_set, hr, ← refsOf_some hobj, update_eq_self]

end

theorem layers_remove (h : Heap V) (i : Nat) : (h.remove i).layers = update h.layers i none :=
  comp_update (Option.map layer) ..

theorem copyOf_remove (h : Heap V) (i : Nat) : (h.remove i).copyOf = update h.copyOf i none :=
  comp_update (fun o : Option (VmObject V) => o.bind copy) ..

theorem refsOf_remove (h : Heap V) (i : Nat) : (h.remove i).refsOf = update h.refsOf i 0 :=
  comp_update (fun o : Option (VmObject V) => (o.map refCount).getD 0) ..

theorem modify_eq (hobj : h.objects i = some obj) (f : VmObject V → VmObject V) :
    h.modify i f = h.set i (f obj) := by
  rw [modify, hobj]

/-! ### `vm_object_reference` -/

def reference (h : Heap V) : Option Nat → Heap V
  | none => h
  | some r => h.modify r fun obj => { obj with refCount := obj.refCount + 1 }

theorem reference_cases (h : Heap V) (r : Option Nat) : h.reference r = h ∨
    ∃ i obj, h.objects i = some obj ∧ h.reference r = h.set i { obj with refCount := obj.refCount + 1 } := by
  cases r with
  | none => exact .inl rfl
  | some r =>
    rw [reference, modify]
    split
    next => exact .inl rfl
    next obj hobj => exact .inr ⟨r, obj, hobj, rfl⟩

theorem layers_reference (h : Heap V) (r : Option Nat) : (h.reference r).layers = h.layers := by
  rcases h.reference_cases r with heq | ⟨i, obj, hobj, heq⟩
  · rw [heq]
  · rw [heq]
    exact layers_set_same hobj rfl

theorem copyOf_reference (h : Heap V) (r : Option Nat) : (h.reference r).copyOf = h.copyOf := by
  rcases h.reference_cases r with heq | ⟨i, obj, hobj, heq⟩
  · rw [heq]
  · rw [heq]
    exact copyOf_set_same hobj rfl

theorem next_reference (h : Heap V) (r : Option Nat) : (h.reference r).next = h.next := by
  rcases h.reference_cases r with heq | ⟨i, obj, hobj, heq⟩ <;> rw [heq]
  rfl

theorem refsOf_reference {r : Option Nat} (hlive : ∀ j, r = some j → (h.layers j).isSome) (j : Nat) :
    (h.reference r).refsOf j = h.refsOf j + if r = some j then 1 else 0 := by
  cases r with
  | none => simp [reference]
  | some r =>
    obtain ⟨l, hl⟩ := isSome_iff_exists.mp (hlive r rfl)
    obtain ⟨obj, hobj, _⟩ := layers_eq_some hl
    rw [reference, modify_eq hobj, refsOf_set]
    by_cases hj : j = r
    · rw [hj, update_self, if_pos rfl, refsOf_some hobj]
    · rw [update_of_ne hj, if_neg fun hr => hj (Option.some.inj hr).symm, Nat.add_zero]

theorem objects_reference {r : Option Nat} (hi : r ≠ some i) : (h.reference r).objects i = h.objects i := by
  cases r with
  | none => rfl
  | some r =>
    rw [reference, modify]
    split
    · rfl
    · exact update_of_ne (fun hr => hi (congrArg some hr.symm)) _ _

theorem search_eq (h : Heap V) : ∀ k i o, h.search k i o = look h.layers k i o
  | 0, i, o => rfl
  | k + 1, i, o => by
    rw [search, look, layers]
    cases h.objects i with
    | none => rfl
    | some obj =>
      dsimp only [map_some, VmObject.layer]
      cases lookup obj.memq o with
      | some v => rfl
      | none =>
        cases obj.shadow with
        | none => rfl
        | some j => exact search_eq h k j (o + obj.shadowOffset)

end Heap

/-! ## Pages -/

section

variable {memq : List (Page V)} {o x : Nat} {d : V}

theorem lookup_cons (p : Page V) (memq : List (Page V)) (x : Nat) :
    lookup (p :: memq) x = if p.offset = x then some p.data else lookup memq x := by
  unfold lookup
  by_cases h : p.offset = x <;> simp [h]

theorem lookup_append (memq memq' : List (Page V)) (x : Nat) :
    lookup (memq ++ memq') x = (lookup memq x).or (lookup memq' x) := by
  unfold lookup
  rw [List.find?_append]
  cases memq.find? fun p => p.offset = x <;> rfl

theorem lookup_insert (h : lookup memq o = none) :
    lookup (memq ++ [⟨o, d⟩]) = update (lookup memq) o (some d) := by
  funext x
  rw [lookup_append, lookup_cons]
  by_cases hx : x = o
  · subst hx
    rw [update_self, h, if_pos rfl]
    rfl
  · rw [update_of_ne hx, if_neg fun ho => hx ho.symm]
    exact or_none

theorem lookup_store (h : (lookup memq o).isSome) :
    lookup (memq.map fun p => if p.offset = o then { p with data := d } else p) =
      update (lookup memq) o (some d) := by
  funext x
  induction memq with
  | nil => cases h
  | cons p memq ih =>
    rw [map_cons, lookup_cons]
    by_cases hp : p.offset = o
    · rw [if_pos hp]
      by_cases hx : x = o
      · rw [hx, update_self, if_pos hp]
      · rw [update_of_ne hx, lookup_cons, if_neg (by dsimp only; omega), if_neg (by omega)]
        clear ih h
        induction memq with
        | nil => rfl
        | cons q memq ih =>
          rw [map_cons, lookup_cons, lookup_cons, ih]
          by_cases hq : q.offset = o
          · rw [if_pos hq, if_neg (by dsimp only; omega), if_neg (by omega)]
          · rw [if_neg hq]
    · rw [lookup_cons, if_neg hp] at h
      rw [if_neg hp, ih h]
      by_cases hx : x = o
      · rw [hx, update_self, update_self, if_neg hp]
      · rw [update_of_ne hx, update_of_ne hx, lookup_cons]

variable {backingOffset size : Nat}

theorem lookup_moveUp (hx : x < size) : ∀ (rest memq : List (Page V)),
    lookup (Heap.moveUp backingOffset size memq rest) x = (lookup memq x).or (lookup rest (x + backingOffset))
  | [], memq => or_none.symm
  | p :: rest, memq => by
    rw [Heap.moveUp, lookup_cons]
    split
    next hout => rw [lookup_moveUp hx rest memq, if_neg (by omega)]
    next hin =>
      split
      next hsome =>
        rw [lookup_moveUp hx rest memq]
        by_cases hp : p.offset = x + backingOffset
        · obtain ⟨v, hv⟩ := isSome_iff_exists.mp hsome
          rw [show p.offset - backingOffset = x by omega] at hv
          rw [hv]
          rfl
        · rw [if_neg hp]
      next hnone =>
        rw [lookup_moveUp hx rest, lookup_append, lookup_cons]
        by_cases hp : p.offset = x + backingOffset
        · rw [if_pos hp, if_pos (by dsimp only; omega)]
          rw [show p.offset - backingOffset = x by omega, not_isSome_iff_eq_none] at hnone
          rw [hnone]
          rfl
        · rw [if_neg hp, if_neg (by dsimp only; omega)]
          congr 1
          exact or_none

theorem lookup_moveUp_of_some : ∀ (rest memq : List (Page V)),
    lookup memq x = some d → lookup (Heap.moveUp backingOffset size memq rest) x = some d
  | [], _, h => h
  | p :: rest, memq, h => by
    rw [Heap.moveUp]
    split
    · exact lookup_moveUp_of_some rest memq h
    · split
      · exact lookup_moveUp_of_some rest memq h
      · refine lookup_moveUp_of_some rest _ ?_
        rw [lookup_append, h]
        rfl

theorem lookup_or_of_notNeeded {backing : List (Page V)} (hx : x < size)
    (h : backing.any (Heap.stillNeeded backingOffset size memq) = false) :
    lookup memq x = (lookup memq x).or (lookup backing (x + backingOffset)) := by
  cases hmem : lookup memq x with
  | some v => rfl
  | none =>
    unfold lookup
    cases hfind : backing.find? fun p => p.offset = x + backingOffset with
    | none => rfl
    | some p =>
      have hp : p.offset = x + backingOffset := by simpa using List.find?_some hfind
      have hneeded : Heap.stillNeeded backingOffset size memq p = true := by
        rw [Heap.stillNeeded, hp, Nat.add_sub_cancel, hmem]
        simp only [isNone_none, Bool.and_true, Bool.and_eq_true, decide_eq_true_eq]
        omega
      exact absurd (List.any_eq_true.mpr ⟨p, mem_of_find?_eq_some hfind, hneeded⟩) (by rw [h]; decide)

end

end Mach.Vm.Cow
