import Mach.Ipc.RightBooks

/-!
# Rights are conserved

What each function on rights does to the books of the ports: the naked rights it is given
are gone, those it returns are owed to the caller, and everything else balances. One
function does not balance: `ipc_right_delta`, when it takes the receive right from an entry
that also has a send right, turns the entry into a dead name and leaves `ip_srights` as it
is. That is right for a port that dies. A port with a port-destroyed request lives on.
-/

namespace Mach.Ipc.Rights

open Multiset State

section

variable {P : Finset PortId} {full : Prop} {s : State} {naked : PortId → Nat} {pend : Key → Option Pending}
  {owed owed' : Right → Count} {k : Key} {p : PortId} {u i : Nat} {m : Bool}

variable {e : Entry}

theorem Entry.port_of_mem_rights (he : e.object = some (.port p)) {r : Right} (hr : r ∈ e.rights) :
    r.port = p := by
  simp only [Entry.rights, he] at hr
  rcases mem_add.mp hr with hr | hr <;>
  · split at hr
    · rw [mem_singleton.mp hr]
      rfl
    · cases hr

theorem tally_rights_dead (he : e.object = some (.port p)) (hp : ¬ (s.port p).active) {r : Right}
    (hr : s.counts r) : tally e.rights r = 0 := by
  rw [e.tally_rights, if_neg]
  intro hmem
  exact hp (Entry.port_of_mem_rights he hmem ▸ hr.1)

section

variable (h : Books P s owed)
include h

theorem Books.clear {m : Multiset Right} (hk : (s.entry k).rights = m) (he : e.rights = 0) :
    Books P (s.setEntry k e) (owed + tally m) := by
  have hset := h.setEntry k e
  rwa [he, hk, tally_zero, sub_zero] at hset

theorem Books.clearDead (hk : (s.entry k).object = some (.port p)) (hp : ¬ (s.port p).active)
    (he : e.rights = 0) : Books P (s.setEntry k e) owed := by
  refine (h.clear rfl he).congr fun r hr => ?_
  rw [Pi.add_apply, tally_rights_dead hk hp hr, add_zero]

theorem Books.marequestCancel (sp : SpaceId) (n : Name) :
    Books P (ipcMarequestCancel s sp n) owed := by
  unfold ipcMarequestCancel
  split
  · exact h
  · exact h.of_eq rfl

theorem Books.cancelIf (b : Bool) (sp : SpaceId) (n : Name) :
    Books P (if b then ipcMarequestCancel s sp n else s) owed := by
  split
  · exact h.marequestCancel sp n
  · exact h

theorem Books.reverseRemove (sp : SpaceId) (p : PortId) : Books P (ipcReverseRemove s sp p) owed :=
  h.of_eq rfl

theorem Books.reverseInsert (sp : SpaceId) (p : PortId) (n : Name) (nomem : Bool) :
    Books P (ipcReverseInsert s sp p n nomem) owed := by
  obtain ⟨hentry, hport, hports, hnotes⟩ := ipcReverseInsert_fields s sp p n nomem
  exact h.of_eq (by rw [hentry, hport, hports, hnotes])

theorem Books.check (hk : (s.entry k).object = some (.port p)) :
    Books P (ipcRightCheck s p k).1 owed := by
  unfold ipcRightCheck
  split
  · exact h
  next hdead =>
    obtain ⟨t, ht⟩ : ∃ t, (if (s.entry k).bits.send then ipcReverseRemove
      (if (s.entry k).bits.marequest then ipcMarequestCancel s k.1 k.2 else s) k.1 p else s) = t := ⟨_, rfl⟩
    have hfields : Books P t owed ∧ t.entry = s.entry ∧ t.port = s.port := by
      rw [← ht]
      split
      · obtain ⟨hentry, hport, -⟩ := cancelIf_fields (s.entry k).bits.marequest k.1 k.2
        exact ⟨(h.cancelIf _ _ _).reverseRemove _ _, hentry, hport⟩
      · exact ⟨h, rfl, rfl⟩
    obtain ⟨hbooks, hentry, hport⟩ := hfields
    simp only
    rw [ht]
    refine (hbooks.release p).clearDead (p := p) ?_ ?_ rfl
    · show (t.entry k).object = _
      rwa [hentry]
    · rw [State.release, setPort_self, hport]
      exact hdead

/-! ## Rights that go -/

def Bits.rights (b : Bits) (p : PortId) : Multiset Right :=
  (if b.send then {.send p} else 0) + (if b.sendOnce then {.sendOnce p} else 0)

theorem Books.dropRights {b : Bits} {dn : Option PortId} (hp : p ∈ P) (ha : (s.port p).active)
    (hb : b.receive → b.sendOnce = false) (name : Name) (hdn : Known P (sonces dn))
    (circular : Bool) :
    Books P (dropRights s b p name dn circular) (owed - tally (b.rights p) - tally (sonces dn)) := by
  obtain ⟨r, hr⟩ : ∃ r, (if b.send then s.dropSright p else (s, none)) = r := ⟨_, rfl⟩
  have hdrop : Owes P r.1 (owed - tally (if b.send then {.send p} else 0)) (noteRights r.2) := by
    rw [← hr]
    cases b.send with
    | true => exact h.dropSright hp ha
    | false =>
      refine Books.owes ?_
      show Books P s (owed - tally 0)
      rwa [tally_zero, sub_zero]
  have hsame : SamePort (r.1.port p) (s.port p) := by
    rw [← hr]
    split
    · exact samePort_dropSright p
    · exact .refl _
  obtain ⟨hbooks, hknown⟩ := hdrop
  have hrest : Books P (if b.receive then ipcPortDestroy (ipcPortClearReceiver r.1 p) p circular
      else if b.sendOnce then r.1.notify (.sendOnce p) else r.1.release p)
      (owed - tally (b.rights p) + tally (noteRights r.2)) := by
    rw [Bits.rights, tally_add]
    split
    next hreceive =>
      have hdestroy := (hbooks.clearReceiver p).destroy hp
        ((samePort_clearReceiver p).active.trans (hsame.active.trans ha)) circular
      rw [hb hreceive]
      simpa using hdestroy
    · split
      next hsonce =>
        have hnotify := hbooks.notify (n := .sendOnce p) (known_singleton hp)
        refine hnotify.congr fun r _ => ?_
        show owed r - (_ + tally {.sendOnce p} r) + _ = owed r - _ + _ - tally {.sendOnce p} r
        ring
      next hsonce =>
        have hrelease := hbooks.release p
        simpa [hsonce] using hrelease
  unfold Rights.dropRights
  rw [hr]
  exact (Owes.notifyIf ⟨hrest, hknown⟩).notifySonces (.portDeleted · name) hdn fun _ => rfl

omit h in
theorem rights_dncancel (hk : (s.entry k).object = some (.port p)) :
    ((ipcRightDncancel s p k).1.entry k).rights = (s.entry k).bits.rights p := by
  rw [dncancel_entry, Entry.rights]
  rw [hk]
  rfl

theorem Books.destroyPort (hk : (s.entry k).object = some (.port p)) (hp : p ∈ P)
    (hb : (s.entry k).bits.receive → (s.entry k).bits.sendOnce = false) (circular : Bool) :
    Books P (if (s.port p).active then
        Rights.dropRights ((ipcRightDncancel s p k).1.setEntry k .blank) (s.entry k).bits p k.2
          (ipcRightDncancel s p k).2 circular
      else (s.release p).setEntry k .blank) owed := by
  split
  next ha =>
    obtain ⟨hd, hknown⟩ := h.dncancel hp ha k
    have hblank := hd.clear (e := .blank) (rights_dncancel hk) rfl
    have hdrop := hblank.dropRights hp
      ((samePort_dncancel p).active.trans ha) hb k.2 hknown circular
    refine hdrop.congr fun r _ => ?_
    show owed r = owed r + _ + _ - _ - _
    ring
  next ha => exact (h.release p).clearDead hk (by rwa [State.release, setPort_self]) rfl

theorem Books.setUrefs (k : Key) (n : Nat) : Books P (s.setUrefs k n) owed := h.setSame rfl

theorem Books.dropSend (hp : p ∈ P) (ha : (s.port p).active)
    (he : s.entry k = ⟨⟨u, true, false, false, false, false, m⟩, some (.port p), i⟩) :
    Books P (dropSend s p k) owed := by
  obtain ⟨hdrop, hknown⟩ := h.dropSright hp ha
  obtain ⟨hd, hknown'⟩ := hdrop.dncancel hp ((samePort_dropSright p).active.trans ha) k
  have hentry := (congrFun (dropSright_fields (p := p)).1 k).trans he
  have hrights := rights_dncancel (by rw [hentry])
  rw [hentry] at hrights
  have hclear := (((hd.reverseRemove k.1 p).cancelIf m k.1 k.2).release p).clear
    (e := .blank) ((congrArg Entry.rights (congrFun (cancelIf_fields m k.1 k.2).1 k)).trans hrights) rfl
  have hnotify := (hclear.notifyIf hknown).notifySonces (.portDeleted · k.2) hknown' fun _ => rfl
  unfold Rights.dropSend
  rw [he]
  refine hnotify.congr fun r _ => ?_
  show owed r = owed r - tally {.send p} r + _ + _ + tally ({.send p} + 0) r - _ - _
  rw [add_zero]
  ring

theorem Books.dropSendOnce (hp : p ∈ P) (ha : (s.port p).active)
    (he : s.entry k = ⟨⟨u, false, false, true, false, false, m⟩, some (.port p), i⟩) :
    Books P (dropSendOnce s p k) owed := by
  obtain ⟨hd, hknown⟩ := h.dncancel hp ha k
  have hrights := rights_dncancel (by rw [he])
  rw [he] at hrights
  have hclear := hd.clear (e := .blank) hrights rfl
  have hnotify := (hclear.notify (n := .sendOnce p) (known_singleton hp)).notifySonces
    (.portDeleted · k.2) hknown fun _ => rfl
  refine hnotify.congr fun r _ => ?_
  show owed r = owed r + _ + tally (0 + {.sendOnce p}) r - tally {.sendOnce p} r - _
  rw [zero_add]
  ring

theorem Books.dropSendOfReceive (hp : p ∈ P) (ha : (s.port p).active)
    (he : s.entry k = ⟨⟨u, true, true, false, false, false, m⟩, some (.port p), i⟩) :
    Books P (dropSendOfReceive s p k) owed := by
  obtain ⟨hdrop, hknown⟩ := h.dropSright hp ha
  have hentry := (congrFun (dropSright_fields (p := p)).1 k).trans he
  have hclear := hdrop.clear (e := ⟨⟨0, false, true, false, false, false, m⟩, some (.port p), i⟩)
    (congrArg Entry.rights hentry) rfl
  unfold Rights.dropSendOfReceive
  rw [he]
  refine (hclear.notifyIf hknown).congr fun r _ => ?_
  show owed r = owed r - tally {.send p} r + _ + tally ({.send p} + 0) r - _
  rw [add_zero]
  ring

section

variable (hinv : Inv full none none s naked pend)
include hinv

theorem Books.clean (circular : Bool) :
    Books P ((ipcRightClean s k circular).setEntry k .blank) owed := by
  have hport : ∀ q, (s.entry k).object = some (.port q) →
      ((s.entry k).bits.receive → (s.entry k).bits.sendOnce = false) →
      Books P ((if (s.port q).active then
        Rights.dropRights (ipcRightDncancel s q k).1 (s.entry k).bits q k.2
          (ipcRightDncancel s q k).2 circular
        else s.release q).setEntry k .blank) owed := by
    intro q hq hb
    rw [apply_ite (State.setEntry · k .blank), dropRights_setEntry]
    exact h.destroyPort hq (h.ports ▸ hinv.object k q hq) hb circular
  have hclear : (s.entry k).rights = 0 → Books P (s.setEntry k .blank) owed :=
    fun he => h.setSame he.symm
  have hok := hinv.ok k
  unfold ipcRightClean
  generalize he : s.entry k = e at hok hport hclear ⊢
  cases hok with
  | none | deadName => exact hclear rfl
  | portSet u m i => exact (hclear rfl).of_eq rfl
  | send u m q i | receive u m q i | sendReceive u m q i | sendOnce u m q i =>
    exact hport q rfl (by simp)

theorem Books.destroyRight (circular : Bool) : Books P (ipcRightDestroy s k circular).2 owed := by
  have hcancel := fun b => cancelIf_fields (s := s) b k.1 k.2
  have hclear : (s.entry k).rights = 0 → Books P (s.setEntry k .blank) owed :=
    fun he => h.setSame he.symm
  have hobject := hinv.object k
  have hok := hinv.ok k
  unfold ipcRightDestroy
  generalize he : s.entry k = e at hok hclear hobject ⊢
  cases hok with
  | none => exact h
  | deadName => exact hclear rfl
  | portSet u m i => exact (hclear rfl).of_eq rfl
  | send u m q i =>
    have hcan := (h.cancelIf m k.1 k.2).reverseRemove k.1 q
    have hentry : (ipcReverseRemove (if m then ipcMarequestCancel s k.1 k.2 else s) k.1 q).entry k =
        ⟨⟨u, true, false, false, false, false, m⟩, some (.port q), i⟩ :=
      (congrFun (hcancel m).1 k).trans he
    have hdestroy := hcan.destroyPort (by rw [hentry]) (h.ports ▸ hobject q rfl)
      (by rw [hentry]; simp) circular
    rw [hentry] at hdestroy
    exact hdestroy
  | receive u m q i | sendReceive u m q i | sendOnce u m q i =>
    have hcan := h.cancelIf m k.1 k.2
    have hentry := (congrFun (hcancel m).1 k).trans he
    have hdestroy := hcan.destroyPort (by rw [hentry]) (h.ports ▸ hobject q rfl)
      (by rw [hentry]; simp) circular
    rw [hentry] at hdestroy
    exact hdestroy

/-! ## User references -/

omit h hinv in
theorem rights_of_deadName (hok : e.Ok) (ht : e.bits.type = .deadName) : e.rights = 0 := by
  cases hok <;> first | rfl | cases ht

omit hinv in
theorem Books.keepDeadName (hok : (s.entry k).Ok) (hk : (s.entry k).bits.type = .deadName) (n : Nat) :
    Books P (keepDeadName s k n) owed := by
  unfold Rights.keepDeadName
  split
  · exact h.setSame (rights_of_deadName hok hk).symm
  · exact h.setUrefs k n

theorem Books.afterCheck {α : Type} {Q : α → Prop} {dead live : State → α} (hk : (s.entry k).object = some (.port p))
    (hpend : pend k = none) (hdead : ∀ s', Books P s' owed → Inv full none none s' naked pend →
      (s'.entry k).bits.type = .deadName → Q (dead s')) (hlive : (s.port p).active → Q (live s)) :
    Q (match ipcRightCheck s p k with
      | (s, true) => dead s
      | (s, false) => live s) :=
  ipcRightCheck_cases (hdead _ (h.check hk) (hinv.check hk hpend)) hlive

theorem Books.drops {s' : State} (hpend : pend k = none) (hs : Drops s k s') : Books P s' owed := by
  have hknown := fun q hq => h.ports ▸ hinv.object k q hq
  cases hs with
  | same => exact h
  | urefs n => exact h.setUrefs k n
  | deadName n hk => exact h.keepDeadName (hinv.ok k) hk n
  | check hk => exact h.check hk
  | checkName n hk hname => exact (h.check hk).keepDeadName ((hinv.check hk hpend).ok k) hname n
  | send ha he => exact h.dropSend (hknown _ (by rw [he])) ha he
  | sendOnce ha he => exact h.dropSendOnce (hknown _ (by rw [he])) ha he
  | sendOfReceive ha he => exact h.dropSendOfReceive (hknown _ (by rw [he])) ha he
  | portSet he =>
    have hblank : Books P (s.setEntry k .blank) owed := h.setSame (by rw [he]; rfl)
    exact hblank.of_eq rfl

omit h hinv in
theorem notifyDead_fields (slots : List DnSlot) : ∀ s : State,
    (s.notifyDead slots).entry = s.entry ∧ (s.notifyDead slots).port = s.port := by
  induction slots with
  | nil => exact fun _ => ⟨rfl, rfl⟩
  | cons slot slots ih =>
    intro s
    cases slot with
    | free next => exact ih s
    | used name q => exact ih _

omit h hinv in
theorem die_dead (s : State) (p : PortId) : ((s.die p).port p).active = false := by
  have hnotify : ∀ (t : State) (n : Option Notification), (t.notifyIf n).port = t.port := fun t n => by
    cases n <;> rfl
  simp only [State.die, State.release, setPort_self]
  rw [(notifyDead_fields _ _).2, hnotify]
  show ((s.setPort p _).port p).active = false
  rw [setPort_self]

omit h hinv in
theorem destroy_dead (circular : Bool) (h : (s.port p).pdrequest = none ∨ circular) :
    ((ipcPortDestroy s p circular).port p).active = false := by
  unfold ipcPortDestroy
  split
  · exact die_dead s p
  next q hq =>
    rw [hq] at h
    obtain rfl := h.resolve_left nofun
    exact die_dead _ p

theorem Books.dropReceive (hk : (s.entry k).receives p) {circular : Bool}
    (hdies : (s.entry k).bits.send → (s.port p).pdrequest = none ∨ circular) :
    Books P (dropReceive s p k circular) owed := by
  obtain ⟨hentry, hport, -⟩ := cancelIf_fields (s.entry k).bits.marequest k.1 k.2
  have hactive := (hinv.receives k p hk).2.1
  have hp : p ∈ P := h.ports ▸ hinv.known p hactive
  have hsonce : (s.entry k).bits.sendOnce = false := by
    have hok := hinv.ok k
    have hreceive := hk.1
    generalize s.entry k = e at hok hreceive
    cases hok <;> first | rfl | cases hreceive
  have hcancel := h.cancelIf (s.entry k).bits.marequest k.1 k.2
  unfold Rights.dropReceive
  simp only
  split
  next hsend =>
    let e : Entry := ⟨{ (s.entry k).bits.toDeadName with
        marequest := false
        urefs := if (s.entry k).request ≠ 0 then (s.entry k).bits.urefs + 1
          else (s.entry k).bits.urefs }, none, 0⟩
    have hclear := hcancel.clear (e := e) (congrArg Entry.rights (congrFun hentry k)) rfl
    have hsame := samePort_clearReceiver (s := (if (s.entry k).bits.marequest then
      ipcMarequestCancel s k.1 k.2 else s).setEntry k e) (p := p) p
    rw [setEntry_port, hport] at hsame
    have hdestroy := (hclear.clearReceiver p).destroy hp (hsame.active.trans hactive) circular
    refine hdestroy.congr fun r hr => ?_
    have hdead := destroy_dead circular (by rw [hsame.pdrequest]; exact hdies hsend)
    rw [Pi.add_apply, tally_rights_dead hk.2 (by rw [hdead]; exact nofun) hr, add_zero]
  next hsend =>
    have hobject : ((if (s.entry k).bits.marequest then ipcMarequestCancel s k.1 k.2
        else s).entry k).object = some (.port p) := by
      rw [hentry]
      exact hk.2
    obtain ⟨hd, hknown⟩ := hcancel.dncancel hp (by rwa [hport]) k
    have hrights := rights_dncancel hobject
    rw [hentry, Bits.rights, hsonce, if_neg hsend] at hrights
    have hblank := hd.clear (e := .blank) hrights rfl
    rw [show ((0 : Multiset Right) + if false = true then {.sendOnce p} else 0) = 0 from rfl, tally_zero,
      add_zero] at hblank
    have hdestroy := (hblank.clearReceiver p).destroy hp ((samePort_clearReceiver p).active.trans
      ((samePort_dncancel p).active.trans (by rwa [hport]))) circular
    have hnotify := hdestroy.notifySonces (.portDeleted · k.2) hknown fun _ => rfl
    rwa [add_sub_cancel_right] at hnotify

theorem Books.delta (hpend : pend k = none) {right : PortRight} {delta : Int} {circular : Bool}
    (hdies : right = .receive → delta = -1 → ∀ p, (s.entry k).receives p → (s.entry k).bits.send →
      (s.port p).pdrequest = none ∨ circular) :
    Books P (ipcRightDelta s k right delta circular).2 owed := by
  rcases hinv.delta_drops right delta circular with hs | ⟨hright, hdelta, p, hk, heq⟩
  · exact h.drops hinv hpend hs
  · rw [heq]
    exact h.dropReceive hinv hk (hdies hright hdelta p hk)

end

end

end

end Mach.Ipc.Rights
