import Mach.Intel.PmapAttributes
import Mach.Intel.PmapAgree
import Mach.Lib.Fallible

/-!
# Modified and referenced pages are recorded

Whatever an operation does to the entry of a managed page, the bits of the entry are in the
new entry or in the attributes of the page (`Carried`). The exception is `pmap_enter` of a
page where it is mapped already: it keeps the modified bit and drops the referenced bit.

A page may be entered where an entry is not valid but wired, if it is the page 0; nothing is
known about it then, but page 0 is not managed, as it lies below the first segment.
-/

namespace Mach.Intel.Pmap

open Lib Function List Option State Bool

variable {M : Machine} {R : Attr → Nat → Prop} {s s' : State} {m va : Nat} {e : Pte} {a : Attr}

/-- The attribute of the page is set, in `pmap_phys_attributes` or in an entry. -/
def Recorded (s : State) (a : Attr) (p : Nat) : Prop :=
  (s.attributes p).attr a = true ∨ ∃ m va, Maps (s.entry m va) p ∧ (s.entry m va).attr a = true

/-- What is to be recorded of the managed pages is recorded, and an entry that is not valid
has no frame. -/
structure Carried (M : Machine) (R : Attr → Nat → Prop) (s : State) : Prop where
  frame : ∀ m va, (s.entry m va).valid = false → (s.entry m va).frame = 0
  carries : ∀ a p, M.validPage p → R a p → Recorded s a p

structure Tracks (M : Machine) (R : Attr → Nat → Prop) (s : State) : Prop where
  lists : Lists M s
  carried : Carried M R s

/-! ## One entry -/

theorem attr_collectBits (s : State) (e : Pte) (a : Attr) (p : Nat) :
    ((s.collectBits e).attributes p).attr a =
      ((s.attributes p).attr a || (decide (p = e.frame) && e.attr a)) := by
  unfold State.collectBits
  dsimp only
  by_cases hp : p = e.frame
  · rw [hp]
    cases a <;> simp [Attributes.attr, Pte.attr]
  · rw [update_of_ne hp]
    simp [hp]

variable {dr dw : Int} {l phys : Nat} {bits : Attr} {K : Attr → Prop}

theorem Changes.recorded {p : Nat} (hch : Changes s s' m va e dr dw) (hmaps : Maps e p)
    (hbit : e.attr a = true) : Recorded s' a p := by
  rw [← hch.entry_same] at hmaps hbit
  exact .inr ⟨m, va, hmaps, hbit⟩

theorem Carried.change (h : Carried M R s) (hch : Changes s s' m va e dr dw)
    (hframe : e.valid = false → e.frame = 0)
    (hattr : ∀ a p, (s.attributes p).attr a = true → (s'.attributes p).attr a = true)
    (hcarry : ∀ a p, M.validPage p → R a p → Maps (s.entry m va) p → (s.entry m va).attr a = true →
      Recorded s' a p) : Carried M R s' := by
  refine ⟨fun m' va' hv => ?_, fun a p hp hR => ?_⟩
  · by_cases hsame : m' = m ∧ va' = va
    · rw [hsame.1, hsame.2, hch.entry_same] at hv ⊢
      exact hframe hv
    · rw [hch.entry_ne hsame] at hv ⊢
      exact h.frame m' va' hv
  · rcases h.carries a p hp hR with hset | ⟨m', va', hmaps, hbit⟩
    · exact .inl (hattr a p hset)
    · by_cases hsame : m' = m ∧ va' = va
      · rw [hsame.1, hsame.2] at hmaps hbit
        exact hcarry a p hp hR hmaps hbit
      · rw [← hch.entry_ne hsame] at hmaps hbit
        exact .inr ⟨m', va', hmaps, hbit⟩

theorem Carried.keep (h : Carried M R s) (hch : Changes s s' m va e dr dw)
    (hv : e.valid = (s.entry m va).valid) (hf : e.frame = (s.entry m va).frame)
    (hbits : ∀ a, (s.entry m va).attr a = true → e.attr a = true)
    (hattr : s'.attributes = s.attributes) : Carried M R s' := by
  refine h.change hch ?_ (fun a p => by rw [hattr]; exact id) fun a p _ _ hmaps hbit => ?_
  · rw [hv, hf]
    exact h.frame m va
  · exact hch.recorded ⟨hv.trans hmaps.1, hf.trans hmaps.2⟩ (hbits a hbit)

theorem overTables_keeps {P : State → Prop} {f : State → Nat → Nat → Except Panic State}
    (hf : ∀ s va n s', P s → f s va n = .ok s' → P s') :
    ∀ {k b : Nat} {s : State}, P s → State.overTables f m l k b s = .ok s' → P s'
  | 0, b, s, h, heq => by
    cases heq
    exact h
  | k + 1, b, s, h, heq => by
    rw [State.overTables] at heq
    split at heq
    next =>
      dsimp only at heq
      split at heq
      next => exact overTables_keeps hf h heq
      next =>
        split at heq
        next => cases heq
        next s1 heq1 => exact overTables_keeps hf (hf _ _ _ _ h heq1) heq
    next =>
      cases heq
      exact h

theorem Carried.protectStep {remove : Bool} {pv : PvEntry} (h : Carried M R s)
    (hstep : ProtectStep M phys remove s s' pv) : Carried M R s' := by
  have hch := hstep.changes
  have hattr := hstep.attributes
  cases hst : stays M remove pv with
  | true =>
    rw [hst] at hch hattr
    exact h.keep hch rfl rfl (fun a => by cases a <;> exact id) hattr
  | false =>
    rw [hst] at hch hattr
    refine h.change hch (fun _ => rfl) (fun a p hset => ?_) fun a p _ _ hmaps hbit => ?_
    · rw [hattr, if_neg Bool.false_ne_true, attr_collectBits, hset]
      rfl
    left
    rw [hattr, if_neg Bool.false_ne_true, attr_collectBits, hbit, hmaps.2]
    simp

section

variable (h : Tracks M R s)
include h

theorem Tracks.keep (hch : Changes s s' m va e dr dw)
    (hv : e.valid = (s.entry m va).valid) (hf : e.frame = (s.entry m va).frame)
    (hbits : ∀ a, (s.entry m va).attr a = true → e.attr a = true)
    (hpv : s'.pvHeadTable = s.pvHeadTable) (hattr : s'.attributes = s.attributes) :
    Tracks M R s' := by
  refine ⟨h.lists.keep hch hpv fun p _ => ?_, h.carried.keep hch hv hf hbits hattr⟩
  unfold Maps
  rw [hv, hf]

theorem Tracks.congr (hentry : s'.entry = s.entry)
    (hpv : s'.pvHeadTable = s.pvHeadTable) (hattr : s'.attributes = s.attributes) : Tracks M R s' := by
  refine ⟨h.lists.congr hentry hpv, ⟨?_, ?_⟩⟩
  · rw [hentry]
    exact h.carried.frame
  unfold Recorded
  rw [hentry, hattr]
  exact h.carried.carries

/-! ## Removing -/

theorem Tracks.removeEntry (hv : (s.entry m va).valid)
    (heq : s.removeEntry M m va (s.entry m va) = .ok s') :
    Tracks M R s' ∧ Changes s s' m va .zero 0 0 := by
  obtain ⟨s1, heq1, hlists, hch, hattr⟩ := removeEntry_lists h.lists hv
  rw [heq] at heq1
  cases heq1
  refine ⟨⟨hlists, h.carried.change hch (fun _ => rfl) (fun a p hset => ?_) fun a p hp _ hmaps hbit => ?_⟩, hch⟩
  · rw [hattr]
    split
    · rw [attr_collectBits, hset]
      rfl
    · exact hset
  · left
    rw [hattr, hmaps.2, if_pos hp, attr_collectBits, hbit, hmaps.2]
    simp

omit h in
theorem Tracks.removeLoop : ∀ {n va removed unwired r u : Nat} {s : State}, Tracks M R s →
    State.removeLoop M m n va removed unwired s = .ok (r, u, s') →
    Tracks M R s' ∧ Edits cleared m va (va + n) s s'
  | 0, va, _, _, _, _, s, h, heq => by
    cases heq
    exact ⟨h, Edits.refl _ m va _⟩
  | n + 1, va, removed, unwired, r, u, s, h, heq => by
    rw [State.removeLoop] at heq
    rw [show va + (n + 1) = va + 1 + n by omega]
    split at heq
    next hzero =>
      obtain ⟨h', hedits⟩ := Tracks.removeLoop h heq
      have hone : Edits cleared m va (va + 1) s s :=
        Edits.of_zero rfl fun va' h1 h2 => (show va' = va by omega) ▸ hzero
      exact ⟨h', hone.trans hedits (by omega) (by omega)⟩
    next =>
      split at heq
      next hv =>
        split at heq
        · cases heq
        rename_i s1 heq1
        obtain ⟨h₁, hch⟩ := h.removeEntry hv heq1
        obtain ⟨h', hedits⟩ := Tracks.removeLoop h₁ heq
        exact ⟨h', (hch.edits rfl).trans hedits (by omega) (by omega)⟩
      next => cases heq

theorem Tracks.removeRange {n : Nat} (heq : s.removeRange M m va n = .ok s') :
    Tracks M R s' ∧ Edits cleared m va (va + n) s s' := by
  unfold State.removeRange at heq
  split at heq
  · cases heq
  split at heq
  · cases heq
  rename_i r u s1 heq1
  cases heq
  obtain ⟨h1, hedits⟩ := h.removeLoop heq1
  refine ⟨h1.congr ?_ rfl rfl, ?_, fun m' i => ?_⟩
  · rw [entry_addWired, entry_addResident]
  · rw [entry_addWired, entry_addResident]
    exact hedits.entry
  · rw [tables_addWired, tables_addResident, hedits.present m' i]

theorem Tracks.remove {b : Nat} (heq : s.remove M m b l = .ok s') : Tracks M R s' :=
  overTables_keeps (fun _ _ _ _ h heq => (h.removeRange heq).1) h heq

/-! ## Protecting -/

omit h in
theorem Tracks.protectRange : ∀ {n va : Nat} {s : State}, Tracks M R s →
    Tracks M R (State.protectRange m n va s)
  | 0, _, _, h => h
  | n + 1, va, s, h => by
    rw [State.protectRange]
    apply Tracks.protectRange
    split
    next hv =>
      have hch := changes_setPte (isSome_of_valid hv) { s.entry m va with write := false }
      exact h.keep hch rfl rfl (fun a => by cases a <;> exact id) rfl rfl
    next => exact h

theorem Tracks.protect {b : Nat} {prot : VmProt}
    (heq : s.protect M m b l prot = .ok s') : Tracks M R s' := by
  unfold State.protect at heq
  split at heq
  next =>
    refine overTables_keeps (fun s va n s' h heq => ?_) h heq
    cases heq
    exact h.protectRange
  next =>
    split at heq
    next =>
      cases heq
      exact h
    next => exact h.remove heq

theorem Tracks.pageProtect {prot : VmProt}
    (heq : s.pageProtect M phys prot = .ok s') : Tracks M R s' := by
  by_cases hgo : M.validPage phys = true ∧ prot ≠ VmProt.all
  · obtain ⟨s1, h', freed, heq1, hcarried, hlists, -⟩ := pageProtect_lists h.lists
      hgo.1 hgo.2 (fun _ _ _ hstep hc => hc.protectStep hstep) h.carried
    rw [heq] at heq1
    cases heq1
    exact ⟨hlists, ⟨hcarried.frame, hcarried.carries⟩⟩
  · rw [pageProtect_noop hgo] at heq
    cases heq
    exact h

end

/-! ## Entering -/

section

variable {v pa : Nat} {prot : VmProt} {wired pvE : Bool}

/-- A referenced page that is entered where it is mapped already is known to be referenced
from elsewhere. -/
def KeepsReference (M : Machine) (s : State) : Action → Prop
  | .enter m v pa _ _ _ => M.validPage pa = true → Maps (s.entry m v) pa → (s.entry m v).referenced = true →
    (s.attributes pa).referenced = true ∨
      ∃ pv ∈ s.pvList pa, pv ≠ ⟨m, v⟩ ∧ (s.entry pv.pmap pv.va).referenced = true
  | _ => True

theorem KeepsReference.congr (h : KeepsReference M s (.enter m v pa prot wired pvE))
    (hentry : s'.entry = s.entry) (hpv : s'.pvHeadTable = s.pvHeadTable)
    (hattr : s'.attributes = s.attributes) : KeepsReference M s' (.enter m v pa prot wired pvE) := by
  unfold KeepsReference State.pvList
  rw [hentry, hpv, hattr]
  exact h

theorem Tracks.entered {left : Bool} (h : Tracks M R s) (hpte : (s.pte m v).isSome)
    (hzero : s.entry m v = .zero) (heq : s.enterPv M m v pa pvE = some (left, s')) :
    Tracks M R (((if wired then (s'.addResident m 1).addWired m 1 else s'.addResident m 1)).setPte m v
      (State.template M m pa prot wired)) := by
  obtain ⟨s1, hs1, hlists, hattr, hch⟩ := Lists.entered wired h.lists hpte hzero heq prot
  rw [← hs1]
  refine ⟨hlists, h.carried.change hch nofun (fun a p => by rw [hattr]; exact id) ?_⟩
  intro a p _ _ hmaps
  rw [hzero] at hmaps
  exact absurd hmaps (not_maps_zero p)

theorem Tracks.pvFree (h : Tracks M R s) (n : Nat) : Tracks M R (s.pvFree n) := h.congr rfl rfl rfl

section

variable (h : Tracks M R s) (h0 : M.validPage 0 = false) (hok : R .referenced pa → KeepsReference M s (.enter m v pa prot wired pvE))
include h h0 hok

theorem Tracks.reenter {dr dw : Int} (hf : (s.entry m v).frame = pa)
    (hch : Changes s s' m v { State.template M m pa prot wired with modified := (s.entry m v).modified } dr dw)
    (hpv : s'.pvHeadTable = s.pvHeadTable) (hattr : s'.attributes = s.attributes) : Tracks M R s' := by
  -- only page 0 can be entered over an entry that is not valid
  have hvalid : M.validPage pa = true → (s.entry m v).valid = true := by
    intro hp
    rw [← not_eq_false]
    intro hv
    rw [← hf, h.carried.frame m v hv, h0] at hp
    cases hp
  refine ⟨h.lists.keep hch hpv fun p hp => ?_, h.carried.change hch nofun
    (fun a p => by rw [hattr]; exact id) fun a p hp hR hmaps hbit => ?_⟩
  · constructor
    · intro hmaps
      exact ⟨rfl, hf.symm.trans hmaps.2⟩
    · rintro ⟨-, rfl⟩
      exact ⟨hvalid hp, hf⟩
  · obtain rfl : pa = p := hf.symm.trans hmaps.2
    cases a with
    | modified => exact hch.recorded ⟨rfl, rfl⟩ hbit
    | referenced =>
      rcases hok hR hp hmaps hbit with hset | ⟨pv, hmem, hne, hbit'⟩
      · left
        rw [hattr]
        exact hset
      · have hother : ¬(pv.pmap = m ∧ pv.va = v) := by
          rintro ⟨rfl, rfl⟩
          exact hne rfl
        have hmaps' := (h.lists.mem_iff hp pv).mp hmem
        rw [← hch.entry_ne hother] at hmaps' hbit'
        exact .inr ⟨pv.pmap, pv.va, hmaps', hbit'⟩

theorem Tracks.enter {entered : Bool}
    (heq : s.enter M m v pa prot wired pvE = .ok (entered, s')) : Tracks M R s' := by
  have hfree : ∀ {b : Bool} {s : State}, Tracks M R s → Tracks M R (if b then s.pvFree 1 else s) := by
    intro b s h
    split
    · exact h.pvFree 1
    · exact h
  unfold State.enter at heq
  split at heq
  · cases heq
  split at heq
  · cases heq
  rename_i s1 hexpand
  obtain ⟨hpte, hentry, hpv, hattr, -⟩ := expand_ok hexpand
  have h1 : Tracks M R s1 := h.congr hentry hpv hattr
  dsimp only at heq
  split at heq
  next hsame =>
    cases heq
    apply hfree
    -- the count of wired pages changes first
    obtain ⟨s2, hs2, hpv2, hattr2, hch⟩ := rewired s1 m v wired
    rw [← hs2]
    have hset := hch.setPte (by rw [hch.pte_isSome, hpte])
      { State.template M m pa prot wired with modified := (s1.entry m v).modified }
    exact h1.reenter h0 (fun hR => (hok hR).congr hentry hpv hattr) hsame.2 hset hpv2 hattr2
  next hsame =>
    split at heq
    · cases heq
    rename_i s2 heq2
    -- the old mapping is removed
    obtain ⟨h2, hpte2, hzero⟩ : Tracks M R s2 ∧ (s2.pte m v).isSome ∧ s2.entry m v = .zero := by
      split at heq2
      next =>
        obtain ⟨h2, hedits⟩ := h1.removeRange heq2
        exact ⟨h2, hedits.cleared_one hpte⟩
      next hz =>
        cases heq2
        exact ⟨h1, hpte, not_not.mp hz⟩
    split at heq
    next =>
      cases heq
      exact h2
    next left s3 hlist =>
      cases heq
      exact hfree (h2.entered hpte2 hzero hlist)

end

end

/-! ## The other operations -/

theorem Tracks.changeWiring {v : Nat} {wired : Bool} (h : Tracks M R s)
    (heq : s.changeWiring m v wired = .ok s') : Tracks M R s' := by
  unfold State.changeWiring at heq
  split at heq
  · cases heq
  rename_i e he
  have hentry := entry_of_pte he
  have hpte : (s.pte m v).isSome := by rw [he]; rfl
  -- whatever the wiring becomes
  have hset : ∀ (n : Int) (b : Bool), Tracks M R ((s.addWired m n).setPte m v { e with wired := b }) := by
    intro n b
    have hch := (Changes.refl s m v).addWired n
    have hset := hch.setPte (by rw [hch.pte_isSome, hpte]) { e with wired := b }
    refine h.keep hset (by rw [hentry]) (by rw [hentry]) (fun a => ?_) rfl rfl
    rw [hentry]
    cases a <;> exact id
  split at heq
  next =>
    cases heq
    exact hset 1 true
  next =>
    split at heq
    next =>
      cases heq
      exact hset (-1) false
    next =>
      cases heq
      exact h

theorem Tracks.collectLoop : ∀ {n i : Nat} {s : State}, Tracks M R s →
    State.collectLoop M m n i s = .ok s' → Tracks M R s'
  | 0, _, _, h, heq => by
    cases heq
    exact h
  | n + 1, i, s, h, heq => by
    rw [State.collectLoop] at heq
    split at heq
    next => exact Tracks.collectLoop h heq
    next table _ =>
      split at heq
      next => exact Tracks.collectLoop h heq
      next =>
        split at heq
        · cases heq
        rename_i s1 heq1
        obtain ⟨h1, hedits⟩ := h.removeRange heq1
        obtain ⟨hentry, -⟩ := setTable_zero (fun va => hedits.table_zero) (t := none) (fun _ ht => by cases ht) rfl
        exact Tracks.collectLoop (h1.congr hentry rfl rfl) heq

theorem Tracks.collect (h : Tracks M R s) (heq : s.collect M m = .ok s') : Tracks M R s' := by
  unfold State.collect at heq
  split at heq
  next =>
    cases heq
    exact h
  next => exact h.collectLoop heq

theorem Tracks.mono {R' : Attr → Nat → Prop} (h : Tracks M R s) (hR : ∀ a p, R' a p → R a p) :
    Tracks M R' s :=
  ⟨h.lists, h.carried.frame, fun a p hp hR' => h.carried.carries a p hp (hR a p hR')⟩

def Observed (s : State) (act : Action) (a : Attr) (p : Nat) : Prop :=
  observe s (fun _ _ => false) act a p = true

theorem observe_eq_true {since : Attr → Nat → Bool} {act : Action} {p : Nat} :
    observe s since act a p = true ↔ since a p = true ∨ Observed s act a p := by
  cases act with
  | use m v modified => simp [Observed, observe]
  | _ => simp [Observed, observe]

theorem Tracks.use {v : Nat} {modified : Bool} (h : Tracks M R s)
    (heq : exec M s (.use m v modified) = .ok s') :
    Tracks M (fun a p => R a p ∨ Observed s (.use m v modified) a p) s' := by
  rw [exec] at heq
  split at heq
  next hv =>
    cases heq
    have hch := changes_setPte (isSome_of_valid hv) { s.entry m v with
      referenced := true, modified := (s.entry m v).modified || (modified && (s.entry m v).write) }
    have hkeep := h.keep hch rfl rfl (fun a hbit => by cases a <;> simp_all [Pte.attr]) rfl rfl
    refine ⟨hkeep.lists, hkeep.carried.frame, fun a p hp hR => ?_⟩
    rcases hR with hR | hseen
    · exact hkeep.carried.carries a p hp hR
    · obtain ⟨⟨-, hframe⟩, hbit⟩ : ((s.entry m v).valid = true ∧ (s.entry m v).frame = p) ∧
          a.ofUse (modified && (s.entry m v).write) = true := by
        simpa [Observed, observe] using hseen
      refine hch.recorded ⟨hv, hframe⟩ ?_
      cases a with
      | modified =>
        rw [Attr.ofUse] at hbit
        rw [Pte.attr, hbit, Bool.or_true]
      | referenced => rfl
  next hv =>
    cases heq
    refine h.mono fun a p hR => hR.resolve_right fun hseen => hv ?_
    simp only [Observed, observe, Bool.false_or, Bool.and_eq_true] at hseen
    exact hseen.1.1

theorem Tracks.exec {act : Action} (h : Tracks M R s) (h0 : M.validPage 0 = false)
    (hok : ∀ p, R .referenced p → KeepsReference M s act) (heq : exec M s act = .ok s') :
    Tracks M (fun a p => R a p ∨ Observed s act a p) s' := by
  cases act
  case use m v modified => exact h.use heq
  -- only a use is observed
  all_goals refine Tracks.mono ?_ fun a p hR => hR.resolve_right false_ne_true
  case enter m v pa prot wired pvE =>
    obtain ⟨r, hr, rfl⟩ := map_eq_ok heq
    exact h.enter h0 (hok pa) hr
  case remove => exact h.remove heq
  case protect => exact h.protect heq
  case pageProtect => exact h.pageProtect heq
  case changeWiring => exact h.changeWiring heq
  case collect => exact h.collect heq

/-! ## Clearing and testing -/

theorem mapping_eq_ok (heq : s.mapping phys m va = .ok e) : s.pte m va = some e ∧ Maps e phys := by
  unfold State.mapping at heq
  split at heq
  · cases heq
  rename_i e' he
  split at heq
  next hmaps =>
    cases heq
    exact ⟨he, hmaps⟩
  next => cases heq

theorem mapping_of_maps (h : Maps (s.entry m va) phys) :
    s.mapping phys m va = .ok (s.entry m va) := by
  obtain ⟨e, he⟩ := isSome_iff_exists.mp (isSome_of_valid h.1)
  rw [entry_of_pte he] at h ⊢
  unfold State.mapping
  rw [he]
  exact if_pos h

theorem Pte.attr_clear (hne : a ≠ bits) : (e.clear bits).attr a = e.attr a := by
  cases a <;> cases bits <;> first | rfl | exact absurd rfl hne

theorem Attributes.attr_clear {x : Attributes} (hne : a ≠ bits) :
    (x.clear bits).attr a = x.attr a := by
  cases a <;> cases bits <;> first | rfl | exact absurd rfl hne

section

variable {phys : Nat} {bits : Attr}

theorem Tracks.clearLoop (hR : ∀ a p, R a p → ¬(a = bits ∧ p = phys)) :
    ∀ {list : List PvEntry} {s : State}, Tracks M R s →
      State.clearLoop phys bits list s = .ok s' → Tracks M R s'
  | [], s, h, heq => by
    cases heq
    exact h
  | pv :: rest, s, h, heq => by
    rw [State.clearLoop] at heq
    split at heq
    · cases heq
    rename_i e he
    obtain ⟨hpte, hmaps⟩ := mapping_eq_ok he
    have hentry := entry_of_pte hpte
    have hch := changes_setPte (by rw [hpte]; rfl) (e.clear bits)
    have hv : (e.clear bits).valid = e.valid := by cases bits <;> rfl
    have hf : (e.clear bits).frame = e.frame := by cases bits <;> rfl
    refine Tracks.clearLoop hR ⟨h.lists.keep hch rfl fun p _ => ?_,
      h.carried.change hch (fun hn => ?_) (fun _ _ => id) fun a p _ hRp hmaps' hbit => ?_⟩ heq
    · unfold Maps
      rw [hentry, hv, hf]
    · rw [hv, hmaps.1] at hn
      cases hn
    rw [hentry] at hmaps' hbit
    have hne : a ≠ bits := fun ha => hR a p hRp ⟨ha, hmaps'.2.symm.trans hmaps.2⟩
    exact hch.recorded ⟨hv.trans hmaps'.1, hf.trans hmaps'.2⟩ ((Pte.attr_clear hne).trans hbit)

theorem Tracks.clear (h : Tracks M R s) (heq : s.physAttributeClear M phys bits = .ok s') :
    Tracks M (fun a p => R a p ∧ ¬(a = bits ∧ p = phys)) s' := by
  have h : Tracks M (fun a p => R a p ∧ ¬(a = bits ∧ p = phys)) s := h.mono fun _ _ hR => hR.1
  unfold State.physAttributeClear at heq
  split at heq
  next =>
    cases heq
    exact h
  next =>
    split at heq
    · cases heq
    rename_i s1 heq1
    cases heq
    have h1 := h.clearLoop (fun _ _ hR => hR.2) heq1
    refine ⟨h1.lists, h1.carried.frame, fun a p hp hR => ?_⟩
    rcases h1.carried.carries a p hp hR with hset | hentry
    · left
      dsimp only
      by_cases hpp : p = phys
      · subst hpp
        rw [update_self, Attributes.attr_clear fun ha => hR.2 ⟨ha, rfl⟩]
        exact hset
      · rw [update_of_ne hpp]
        exact hset
    · exact .inr hentry

theorem testLoop_eq_true : ∀ {list : List PvEntry},
    (∀ pv ∈ list, Maps (s.entry pv.pmap pv.va) phys) →
    (∃ pv ∈ list, (s.entry pv.pmap pv.va).attr bits = true) →
    State.testLoop s phys bits list = .ok true
  | [], _, h => by
    obtain ⟨pv, hmem, -⟩ := h
    cases hmem
  | pv :: rest, hmaps, h => by
    rw [State.testLoop, mapping_of_maps (hmaps pv mem_cons_self)]
    dsimp only
    split
    next => rfl
    next hbit =>
      apply testLoop_eq_true (forall_mem_cons.mp hmaps).2
      obtain ⟨pv', hmem, hbit'⟩ := h
      rcases mem_cons.mp hmem with rfl | hmem
      · exact absurd hbit' hbit
      · exact ⟨pv', hmem, hbit'⟩

theorem Tracks.test (h : Tracks M R s) (hp : M.validPage phys) (hR : R bits phys) :
    s.physAttributeTest M phys bits = .ok true := by
  unfold State.physAttributeTest
  rw [if_neg (not_not.mpr hp)]
  split
  next => rfl
  next hset =>
    apply testLoop_eq_true
    · exact fun pv hmem => (h.lists.mem_iff hp pv).mp hmem
    rcases h.carried.carries bits phys hp hR with hset' | ⟨m, va, hmaps, hbit⟩
    · exact absurd hset' hset
    · exact ⟨⟨m, va⟩, (h.lists.mem_iff hp ⟨m, va⟩).mpr hmaps, hbit⟩

end

/-! ## Runs -/

variable {w w' : Watched}

def Kept (M : Machine) (w : Watched) : WatchedAction → Prop
  | .call act => KeepsReference M w.pmap act
  | _ => True

def Watched.seen (w : Watched) (K : Attr → Prop) (a : Attr) (p : Nat) : Prop := K a ∧ w.since a p = true

theorem Tracks.watchedStep {act : WatchedAction} (h : Tracks M (w.seen K) w.pmap)
    (h0 : M.validPage 0 = false) (hok : K .referenced → Kept M w act)
    (heq : watchedStep M w act = .ok w') : Tracks M (w'.seen K) w'.pmap := by
  cases act with
  | call act =>
    obtain ⟨s', hr, rfl⟩ := map_eq_ok heq
    refine (h.exec h0 (fun p hR => hok hR.1) hr).mono fun a p hseen => ?_
    rcases observe_eq_true.mp hseen.2 with hold | hnew
    · exact .inl ⟨hseen.1, hold⟩
    · exact .inr hnew
  | clearModify phys | clearReference phys =>
    obtain ⟨s', hr, rfl⟩ := map_eq_ok heq
    refine (h.clear hr).mono fun a p hseen => ?_
    have hkept := hseen.2
    simp only [forget, and_eq_true] at hkept
    exact ⟨⟨hseen.1, hkept.1⟩, by simpa [imp_iff_not_or] using hkept.2⟩

theorem Tracks.init (h : (watched M).init w) : Tracks M (w.seen K) w.pmap := by
  have hinv : Inv M w.pmap := .init h.1
  refine ⟨hinv.linked.linked, fun m va hv => ?_, fun a p _ hseen => ?_⟩
  · by_cases hz : w.pmap.entry m va = .zero
    · rw [hz]
      rfl
    · rw [hinv.linked.sound m va hz] at hv
      cases hv
  · exact absurd ((h.2 a p).symm.trans hseen.2) false_ne_true

theorem Tracks.reach {ok : Watched → WatchedAction → Prop} (h0 : M.validPage 0 = false)
    (hok : ∀ w act, K .referenced → ok w act → Kept M w act) (h : (watched M).Reach ok w) :
    Tracks M (w.seen K) w.pmap := by
  refine h.inv (fun w => Tracks.init) fun w act w' hi hact heq => ?_
  have heq : (Pmap.watchedStep M w act).toOption = some w' := heq
  cases hr : Pmap.watchedStep M w act with
  | error p => rw [hr] at heq; cases heq
  | ok w1 =>
    rw [hr] at heq
    cases heq
    exact hi.watchedStep h0 (fun hK => hok w act hK hact) hr

/-- **Modified and referenced pages are found.** After any run a managed page that was written
since its modified bit was last cleared is found modified; and a page that was used since its
referenced bit was last cleared is found referenced, after a run in which no `pmap_enter` has
dropped the only record of it. -/
theorem attributes_found (h0 : M.validPage 0 = false) {p : Nat} (hp : M.validPage p = true) :
    ((watched M).Reach anyStep w → w.since .modified p = true → w.pmap.isModified M p = .ok true) ∧
    ((watched M).Reach (Kept M) w → w.since .referenced p = true →
      w.pmap.isReferenced M p = .ok true) := by
  constructor
  · intro h hseen
    have htracks := Tracks.reach (K := fun a => a = .modified) h0 nofun h
    exact htracks.test hp ⟨rfl, hseen⟩
  · intro h hseen
    have htracks := Tracks.reach (K := fun _ => True) h0 (fun _ _ _ hok => hok) h
    exact htracks.test hp ⟨trivial, hseen⟩

def pages : Machine := { small with validPage := fun p => decide (0 < p ∧ p < 16) }

def unwatched : Watched := ⟨unmapped, fun _ _ => false⟩

theorem unwatched_init : (watched pages).init unwatched := ⟨unmapped_init, fun _ _ => rfl⟩

def enterAndWrite : List WatchedAction :=
  [.call (.enter 1 5 7 VmProt.all false false), .call (.use 1 5 true)]

theorem enterAndWrite_found : ∃ w, (watched pages).run unwatched enterAndWrite = some w ∧
    w.pmap.isModified pages 7 = .ok true ∧ w.pmap.isReferenced pages 7 = .ok true := by
  have hrun : ((watched pages).run unwatched enterAndWrite).map
      (fun w => (w.since .modified 7, w.since .referenced 7)) = some (true, true) := by decide
  obtain ⟨w, hw, hseen⟩ := map_eq_some_iff.mp hrun
  rw [Prod.mk.injEq] at hseen
  have hok : (watched pages).okRun (Kept pages) unwatched enterAndWrite := by
    refine ⟨fun _ hmaps => absurd hmaps ?_, ?_⟩
    · exact not_maps_zero 7
    · exact ⟨trivial, by split <;> trivial⟩
  have hfound := attributes_found (M := pages) (w := w) rfl (p := 7) rfl
  exact ⟨w, hw, hfound.1 (.run _ (.start unwatched_init) (Lts.okRun_any _ _ _) hw) hseen.1,
    hfound.2 (.run _ (.start unwatched_init) hok hw) hseen.2⟩

/-- A page that has been used is entered once more where it is mapped: it is not found
referenced then. -/
theorem enterAgain_notReferenced : ∃ w, (watched pages).Reach anyStep w ∧
    w.since .referenced 7 = true ∧ w.pmap.isReferenced pages 7 = .ok false := by
  have hrun : ((watched pages).run unwatched (enterAndWrite ++
      [.call (.enter 1 5 7 VmProt.read false false)])).map (fun w =>
        (w.since .referenced 7, decide (w.pmap.isReferenced pages 7 = .ok false))) =
      some (true, true) := by decide
  obtain ⟨w, hw, hfacts⟩ := map_eq_some_iff.mp hrun
  rw [Prod.mk.injEq] at hfacts
  exact ⟨w, .run _ (.start unwatched_init) (Lts.okRun_any _ _ _) hw, hfacts.1, of_decide_eq_true hfacts.2⟩

end Mach.Intel.Pmap
