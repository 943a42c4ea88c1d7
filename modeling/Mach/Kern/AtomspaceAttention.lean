import Mathlib.Algebra.BigOperators.Group.Finset.Basic
import Mach.Kern.AtomspaceInv

/-!
# Spreading attention

`atomspace_spread_attention` of `kern/atomspace.c`: every link with an STI above 10 keeps an
equal share for itself and for each atom of its outgoing set, in the order of the slots. The
link pays for all shares, also for those of atoms that have been removed and get nothing.

`av.sti` is kept beside the atom space, by slots.
-/

namespace Mach.Kern.Atomspace

open Finset Function

/-- The value of an `int16_t` after a computation. -/
def toInt16 (x : Int) : Int := x.bmod (2 ^ 16)

structure Attention where
  /-- `av.sti` of the atom in each slot. -/
  sti : Nat → Int
  exact : Bool

def Attention.store (v : Attention) (i : Nat) (x : Int) : Attention :=
  ⟨update v.sti i (toInt16 x), v.exact && toInt16 x = x⟩

def atomStimulate (v : Attention) (i : Nat) (amount : Int) : Attention :=
  v.store i (v.sti i + amount)

def stimulateAll (s : Space) (spread : Int) : List Nat → Attention → Attention
  | [], v => v
  | h :: hs, v =>
    stimulateAll s spread hs (match atomspaceGetAtom s h with
      | some target => atomStimulate v target spread
      | none => v)

def share (a : Atom) (sti : Int) : Int := sti / (a.outgoing.length + 1)

def spreads (v : Attention) (i : Nat) (a : Atom) : Bool :=
  a.flags.valid && a.type.isLink && 10 < v.sti i

def spreadLink (s : Space) (v : Attention) (i : Nat) : Attention :=
  match s.atoms[i]? with
  | none => v
  | some a =>
    if spreads v i a then
      let spread := share a (v.sti i)
      let w := stimulateAll s spread a.outgoing v
      w.store i (w.sti i - spread * a.outgoing.length)
    else v

def spreadFirst (s : Space) (v : Attention) : Nat → Attention
  | 0 => v
  | i + 1 => spreadLink s (spreadFirst s v i) i

def atomspaceSpreadAttention (s : Space) (v : Attention) : Attention :=
  spreadFirst s v s.atoms.length

/-- The sum of `av.sti` over the valid atoms. -/
def Attention.total (s : Space) (v : Attention) : Int :=
  ∑ i ∈ range s.atoms.length with s.holds (·.flags.valid) i, v.sti i

/-- If the link in the slot spreads anything, each of its handles denotes an atom. -/
def Arrives (s : Space) (v : Attention) (i : Nat) : Prop :=
  ∀ a, s.atoms[i]? = some a → spreads v i a = true → share a (v.sti i) ≠ 0 →
    ∀ h ∈ a.outgoing, (atomspaceGetAtom s h).isSome

/-! ## The loops -/

variable {s : Space} {v : Attention} {i : Nat} {x : Int}

theorem store_exact (h : (v.store i x).exact = true) : v.exact = true ∧ toInt16 x = x := by
  simpa [Attention.store] using h

theorem total_store {a : Atom} (hi : s.At i a) (h : (v.store i x).exact = true) :
    (v.store i x).total s = v.total s + (x - v.sti i) := by
  have hlt := (List.getElem?_eq_some_iff.mp hi.1).1
  have hmem : i ∈ {j ∈ range s.atoms.length | s.holds (·.flags.valid) j} := by
    refine mem_filter.mpr ⟨mem_range.mpr hlt, ?_⟩
    rw [Space.holds, hi.1]
    exact hi.2
  unfold Attention.total Attention.store
  dsimp only
  rw [(store_exact h).2, ← add_sum_erase _ _ hmem, ← add_sum_erase _ v.sti hmem, update_self,
    sum_congr rfl fun j hj => update_of_ne (ne_of_mem_erase hj) ..]
  omega

theorem stimulateAll_total (hs : List Nat) (v : Attention)
    (h : (stimulateAll s x hs v).exact = true) : v.exact = true ∧
    (stimulateAll s x hs v).total s =
      v.total s + x * hs.countP fun k => (atomspaceGetAtom s k).isSome := by
  induction hs generalizing v with
  | nil => exact ⟨h, by simp [stimulateAll]⟩
  | cons k hs ih =>
    obtain ⟨hv, htotal⟩ := ih _ h
    rw [stimulateAll, htotal, List.countP_cons]
    cases hk : atomspaceGetAtom s k with
    | none =>
      rw [hk] at hv
      exact ⟨hv, rfl⟩
    | some target =>
      rw [hk] at hv
      obtain ⟨a, ha, -⟩ := getAtom_at hk
      refine ⟨(store_exact hv).1, ?_⟩
      dsimp only
      rw [atomStimulate, total_store ha hv, Option.isSome_some, if_pos rfl, Int.natCast_add, Int.mul_add]
      omega

theorem spreadLink_total (h : (spreadLink s v i).exact = true) : v.exact = true ∧
    (spreadLink s v i).total s ≤ v.total s ∧
      ((spreadLink s v i).total s = v.total s ↔ Arrives s v i) := by
  unfold spreadLink at h ⊢
  cases ha : s.atoms[i]? with
  | none =>
    rw [ha] at h
    exact ⟨h, le_rfl, iff_of_true rfl fun a ha' => by rw [ha] at ha'; cases ha'⟩
  | some a =>
    rw [ha] at h
    dsimp only at h ⊢
    split at h
    next hs =>
      rw [if_pos hs]
      obtain ⟨⟨hvalid, -⟩, hlarge⟩ : (a.flags.valid = true ∧ a.type.isLink = true) ∧ 10 < v.sti i := by
        simpa [spreads] using hs
      obtain ⟨hv, htotal⟩ := stimulateAll_total _ _ (store_exact h).1
      rw [total_store ⟨ha, hvalid⟩ h]
      have hshare : 0 ≤ share a (v.sti i) := Int.ediv_nonneg (by omega) (by omega)
      have hiff : Arrives s v i ↔ share a (v.sti i) ≠ 0 →
          a.outgoing.countP (fun k => (atomspaceGetAtom s k).isSome) = a.outgoing.length := by
        rw [List.countP_eq_length]
        exact ⟨fun h => h a ha hs, fun h b hb => by cases ha.symm.trans hb; exact fun _ => h⟩
      obtain ⟨d, hd⟩ := Nat.exists_eq_add_of_le (List.countP_le_length (l := a.outgoing)
        (p := fun k => (atomspaceGetAtom s k).isSome))
      have hlost : share a (v.sti i) * d = 0 ↔ Arrives s v i := by
        rw [hiff, Int.mul_eq_zero]
        omega
      have hnonneg := Int.mul_nonneg hshare (Int.natCast_nonneg d)
      rw [← hlost, hd, Int.natCast_add, Int.mul_add]
      exact ⟨hv, by omega, by omega⟩
    next hs =>
      rw [if_neg hs]
      refine ⟨h, le_rfl, iff_of_true rfl fun b hb hs' => ?_⟩
      cases ha.symm.trans hb
      exact absurd hs' hs

theorem spreadFirst_total (n : Nat) (h : (spreadFirst s v n).exact = true) :
    (spreadFirst s v n).total s ≤ v.total s ∧
      ((spreadFirst s v n).total s = v.total s ↔ ∀ i < n, Arrives s (spreadFirst s v i) i) := by
  induction n with
  | zero => exact ⟨le_rfl, iff_of_true rfl nofun⟩
  | succ n ih =>
    obtain ⟨hn, hle, hiff⟩ := spreadLink_total h
    obtain ⟨hle', hiff'⟩ := ih hn
    refine ⟨hle.trans hle', ?_⟩
    rw [Nat.forall_lt_succ_right, ← hiff', ← hiff, spreadFirst]
    omega

/-- **Spreading attention keeps its sum** if and only if no share of it is for an atom that
has been removed. -/
theorem spread_conserves_iff (s : Space) (v : Attention)
    (h : (atomspaceSpreadAttention s v).exact = true) :
    (atomspaceSpreadAttention s v).total s = v.total s ↔
      ∀ i < s.atoms.length, Arrives s (spreadFirst s v i) i :=
  (spreadFirst_total _ h).2

def linked : Space :=
  let name (c : Int8) (h : c ≠ 0) : CString := ⟨[c], fun d hd => List.mem_singleton.mp hd ▸ h⟩
  let s := (atomspaceAddNode atomspaceCreate .conceptNode (some (name 97 (by decide)))).2
  let s := (atomspaceAddNode s .conceptNode (some (name 98 (by decide)))).2
  (atomspaceAddLink s .inheritanceLink (some (· + 1)) 2).2

def halfRemoved : Space := (atomspaceRemoveAtom linked 1).2

def linkOnly : Attention := ⟨fun i => if i = 2 then 12 else 0, true⟩

/-- Of the 12 that the link has it keeps 4, and 4 are lost. -/
theorem halfRemoved_loses : (atomspaceSpreadAttention halfRemoved linkOnly).exact = true ∧
    linkOnly.total halfRemoved = 12 ∧
    (atomspaceSpreadAttention halfRemoved linkOnly).total halfRemoved = 8 := by
  decide

theorem linked_conserves :
    (atomspaceSpreadAttention linked linkOnly).total linked = linkOnly.total linked ∧
      ¬ ∀ i < 3, Arrives halfRemoved (spreadFirst halfRemoved linkOnly i) i := by
  refine ⟨(spread_conserves_iff linked linkOnly (by decide)).mpr fun i hi a ha _ _ h hh => ?_, fun h => ?_⟩
  · have hall : ∀ a ∈ linked.atoms, ∀ h ∈ a.outgoing, (atomspaceGetAtom linked h).isSome := by decide
    exact hall a (List.mem_of_getElem? ha) h hh
  · exact absurd ((spread_conserves_iff halfRemoved linkOnly (by decide)).mpr h) (by decide)

end Mach.Kern.Atomspace
