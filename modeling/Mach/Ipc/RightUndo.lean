import Mach.Ipc.RightCount

/-!
# Undoing a copyin

`ipc_right_copyin_undo` puts back a send or send-once right that was copied in and whose
port is dead. The entry has changed since; what it was is told from what is left of it and
from the send-once right that the copyin returned for a dead-name request. The entry comes
out as `ipc_right_check` would have left the original.

Of a state only the entry and the references of the ports matter here: `view`.
-/

namespace Mach.Ipc.Rights

open Function State Prod

variable {s s₁ t : State} {k : Key} {p : PortId} {msgt : Disposition} {c : Copied}

/-! ## Well-formed entries -/

/-- The entry is as the operations on rights keep it. -/
structure State.WellFormed (s : State) (k : Key) : Prop where
  ok : (s.entry k).Ok
  send : (s.entry k).bits.send → 1 ≤ (s.entry k).bits.urefs ∧ (s.entry k).bits.urefs < urefsMax
  sendOnce : (s.entry k).bits.sendOnce →
    (s.entry k).bits.urefs = 1 ∧ (s.entry k).bits.marequest = false
  alone : (s.entry k).bits.type = .receive ∨ (s.entry k).bits.type = .portSet →
    (s.entry k).bits.urefs = 0
  deadName : (s.entry k).bits.deadName → 1 ≤ (s.entry k).bits.urefs ∧
    (s.entry k).bits.urefs ≤ urefsMax ∧ (s.entry k).bits.marequest = false
  request : ∀ p, (s.entry k).object = some (.port p) → (s.port p).active →
    (s.entry k).request ≠ 0 → (s.port p).slotUsed (s.entry k).request

/-- The dead name that a send or send-once right becomes; a dead-name request leaves another
user reference behind. -/
def Entry.dead (e : Entry) : Entry where
  bits := { Bits.zero with
    urefs := if e.request ≠ 0 then e.bits.urefs + 1 else e.bits.urefs, deadName := true }
  object := none
  request := 0

/-- `ipc_right_check` of what the entry refers to; a dead name refers to nothing. -/
def State.checked (s : State) (k : Key) : State :=
  match (s.entry k).port with
  | some p => (ipcRightCheck s p k).1
  | none => s

/-! ## What is looked at -/

/-- The entry, and the references of the ports. -/
def State.view (s : State) (k : Key) : Entry × (PortId → Count) :=
  (s.entry k, fun q => (s.port q).references)

def bump (r : PortId → Count) (p : PortId) (n : Count) : PortId → Count :=
  update r p (r p + n)

theorem bump_bump (r : PortId → Count) (p : PortId) (m n : Count) :
    bump (bump r p m) p n = bump r p (m + n) := by
  simp only [bump, update_self, update_idem, BitVec.add_assoc]

theorem view_setPort (x : Port) :
    (s.setPort p x).view k = ((s.view k).1, update (s.view k).2 p x.references) := by
  refine Prod.ext rfl (funext fun q => ?_)
  by_cases hq : q = p
  · subst hq
    simp only [State.view, setPort_self, update_self]
  · simp only [State.view, setPort_of_ne _ _ _ _ hq, update_of_ne hq]

theorem view_keep (x : Port) (hx : x.references = (s.port p).references) :
    (s.setPort p x).view k = s.view k := by
  rw [view_setPort, hx]
  exact Prod.ext rfl (update_eq_self p _)

theorem view_setEntry (e : Entry) : (s.setEntry k e).view k = (e, (s.view k).2) :=
  Prod.ext (setEntry_self ..) rfl

theorem view_release : (s.release p).view k = ((s.view k).1, bump (s.view k).2 p (-1)) := by
  rw [State.release, view_setPort, BitVec.sub_eq_add_neg]
  rfl

theorem view_copySright : (s.copySright p).view k = ((s.view k).1, bump (s.view k).2 p 1) := by
  rw [State.copySright, view_setPort]
  rfl

theorem view_congr (hentry : t.entry = s.entry) (hport : t.port = s.port) :
    t.view k = s.view k := by
  rw [State.view, State.view, hentry, hport]

theorem view_cancelIf (b : Bool) (sp : SpaceId) (n : Name) :
    (if b then ipcMarequestCancel s sp n else s).view k = s.view k :=
  view_congr (cancelIf_fields b sp n).1 (cancelIf_fields b sp n).2.1

theorem view_die : (s.die p).view k = ((s.view k).1, bump (s.view k).2 p (-1)) := by
  have hdead : ∀ slots (t : State), (t.notifyDead slots).view k = t.view k := fun slots t =>
    view_congr (notifyDead_fields slots t).1 (notifyDead_fields slots t).2
  have hnotifyIf : ∀ (t : State) (n : Option Notification), (t.notifyIf n).view k = t.view k := by
    intro t n
    cases n <;> rfl
  simp only [State.die, view_release, hdead, hnotifyIf]
  rw [← view_keep { s.port p with
    active := false, data := .timestamp s.timestamp } rfl]
  rfl

theorem view_dncancel :
    (ipcRightDncancel s p k).1.view k = ({ s.entry k with request := 0 }, (s.view k).2) := by
  unfold ipcRightDncancel
  split
  next h => exact Prod.ext (by rw [← h]; rfl) rfl
  next =>
    obtain ⟨x, hx⟩ := ipcPortDncancel_eq (s.port p) (s.entry k).request
    rw [view_setEntry, view_keep _ (by rw [hx])]

theorem dncancel_soright (hslot : (s.entry k).request ≠ 0 → (s.port p).slotUsed (s.entry k).request) :
    (ipcRightDncancel s p k).2.isSome = decide ((s.entry k).request ≠ 0) := by
  unfold ipcRightDncancel
  split
  next h => simp [h]
  next h =>
    obtain ⟨x, name, q, hx, hq⟩ := hslot h
    simp [ipcPortDncancel, hx, hq, h]

/-! ## Checking -/

theorem view_check (ha : (s.port p).active = false)
    (hm : ((s.entry k).bits.marequest && !(s.entry k).bits.send) = false) :
    (ipcRightCheck s p k).1.view k = ((s.entry k).dead, bump (s.view k).2 p (-1)) := by
  have hrest : (if (s.entry k).bits.send then ipcReverseRemove
      (if (s.entry k).bits.marequest then ipcMarequestCancel s k.1 k.2 else s) k.1 p
      else s).view k = s.view k := by
    split
    · exact view_cancelIf _ _ _
    · rfl
  unfold ipcRightCheck
  rw [if_neg (by rw [ha]; exact nofun)]
  simp only [view_setEntry, view_release, hrest, hm]
  rfl

/-! ## Undoing -/

variable {u i : Nat} {m : Bool} {e : Entry}

theorem view_undo_gone (he : t.entry k = ⟨⟨u, false, false, false, false, false, m⟩, none, 0⟩)
    {q : Option PortId} :
    (ipcRightCopyinUndo t k msgt ⟨some p, q⟩).view k =
      (⟨{ Bits.zero with urefs := if q.isSome then 2 else 1, deadName := true }, none, 0⟩,
        bump (t.view k).2 p (-1)) := by
  have htype : (t.entry k).bits.type = .none := by rw [he]; rfl
  simp only [ipcRightCopyinUndo, view_release, htype, if_true]
  split <;> rw [view_setEntry, he]

theorem view_undo_send (ha : (t.port p).active = false)
    (he : t.entry k = ⟨⟨u, true, false, false, false, false, m⟩, some (.port p), i⟩)
    (h : e = ⟨⟨if msgt = .copySend then u else u + 1, true, false, false, false, false, m⟩,
      some (.port p), i⟩) :
    (ipcRightCopyinUndo t k msgt ⟨some p, none⟩).view k = (e.dead, bump (t.view k).2 p (-2)) := by
  have htype : (t.entry k).bits.type = .send := by rw [he]; rfl
  have hview : ∀ t', t'.port = t.port → t'.entry k = e →
      ((ipcRightCheck t' p k).1.release p).view k = (e.dead, bump (t.view k).2 p (-2)) := by
    intro t' hport he'
    rw [view_release, view_check (by rw [hport]; exact ha) (by rw [he', h]; exact Bool.and_false m),
      bump_bump, State.view, hport, he']
    rfl
  simp only [ipcRightCopyinUndo, htype, Option.isSome_none, Bool.false_eq_true, if_false,
    reduceCtorEq]
  split
  next hm => exact hview t rfl (by rw [he, h, if_pos hm])
  next hm =>
    refine hview _ rfl ?_
    rw [State.setUrefs, setEntry_self, he, h, if_neg hm]

theorem view_undo_dead {deadok : Bool} (hu : 1 ≤ u)
    (he : t.entry k = ⟨⟨u, false, false, false, false, true, false⟩, none, 0⟩)
    (h : (if msgt = .copySend then copyDead t deadok else moveDead t k deadok) = (s₁, some c)) :
    c.object = none ∧ (ipcRightCopyinUndo s₁ k msgt c).view k = t.view k := by
  have hview : t.view k = (⟨⟨u, false, false, false, false, true, false⟩, none, 0⟩, (t.view k).2) :=
    Prod.ext he rfl
  cases deadok with
  | false => split at h <;> cases h
  | true =>
    split at h
    next hm =>
      have htype : (t.entry k).bits.type = .deadName := by rw [he]; rfl
      cases h
      simp [ipcRightCopyinUndo, hm, htype]
    next hm =>
      have h1 : (s₁, some c) = (t.setEntry k { t.entry k with bits := if u = 1
          then ⟨u, false, false, false, false, false, false⟩
          else ⟨u - 1, false, false, false, false, true, false⟩ }, some ⟨none, none⟩) := by
        rw [← h, moveDead, he]
        rfl
      cases h1
      refine ⟨rfl, ?_⟩
      rw [hview]
      simp only [ipcRightCopyinUndo, setEntry_self, Option.isSome_none, Bool.false_eq_true,
        if_false, he, if_neg hm]
      split
      next hu1 =>
        subst hu1
        rw [if_pos (by rfl), view_setEntry]
        rfl
      next hu1 =>
        rw [if_neg (by exact nofun), if_pos (by rfl), State.setUrefs, view_setEntry, view_setEntry,
          setEntry_self, Nat.sub_add_cancel hu]

/-! ## Copyin and undo -/

def Disposition.asks (msgt : Disposition) (b : Bits) : Bool :=
  if msgt = .moveSendOnce then b.sendOnce else b.send

def copyinLive (s : State) (k : Key) (msgt : Disposition) (p : PortId) : State × Option PortId :=
  match msgt with
  | .copySend => (s.copySright p, none)
  | .moveSend => moveSend s p k
  | _ => moveSendOnce s p k

theorem copyin_some {deadok nomem : Bool}
    (hmsgt : msgt = .copySend ∨ msgt = .moveSend ∨ msgt = .moveSendOnce) (hok : (s.entry k).Ok)
    (h : ipcRightCopyin s k msgt deadok nomem = (s₁, some c)) :
    (((s.entry k).bits.deadName ∨ ∃ p, (s.entry k).bits.sendRights ∧
        (s.entry k).object = some (.port p) ∧ (s.port p).active = false) ∧
      (if msgt = .copySend then copyDead (s.checked k) deadok
        else moveDead (s.checked k) k deadok) = (s₁, some c)) ∨
    ∃ p, (s.entry k).object = some (.port p) ∧ (s.port p).active ∧
      msgt.asks (s.entry k).bits ∧ s₁ = (copyinLive s k msgt p).1 ∧ c = ⟨some p, (copyinLive s k msgt p).2⟩ := by
  have heq : ipcRightCopyin s k msgt deadok nomem = copyinSend s k (msgt.asks (s.entry k).bits)
      (fun t => if msgt = .copySend then copyDead t deadok else moveDead t k deadok)
      (copyinLive s k msgt) := by
    rcases hmsgt with rfl | rfl | rfl <;> rfl
  rw [heq] at h
  generalize he : s.entry k = e at hok
  cases hok with
  | none | portSet | receive => simp [copyinSend, he, Bits.sendRights] at h
  | deadName u m =>
    refine .inl ⟨.inl rfl, ?_⟩
    simpa [copyinSend, State.checked, Entry.port, he] using h
  | send u m p i | sendReceive u m p i | sendOnce u m p i =>
    rw [copyinSend_eq (by rw [he]) (by rw [he]; rfl) (by rw [he]; rfl)] at h
    cases ha : (s.port p).active with
    | false =>
      have hcheck : (ipcRightCheck s p k).2 = true := (ipcRightCheck_dead (by simp [ha])).1
      refine .inl ⟨.inr ⟨p, rfl, rfl, ha⟩, ?_⟩
      have hchecked : s.checked k = (ipcRightCheck s p k).1 := by simp [State.checked, Entry.port, he]
      rw [hchecked, ← h]
      cases hr : ipcRightCheck s p k with
      | mk t b =>
        rw [hr] at hcheck
        cases hcheck
        rfl
    | true =>
      rw [ipcRightCheck_live ha] at h
      simp only at h
      split at h
      next hasks =>
        cases h
        exact .inr ⟨p, rfl, ha, by rw [← he]; exact hasks, rfl, rfl⟩
      · cases h

theorem undo_gone {b : Bits} (he : s.entry k = ⟨b, some (.port p), i⟩) (hb : b.urefs = 1)
    (hslot : i ≠ 0 → (s.port p).slotUsed i)
    (h1 : s₁.view k = (⟨⟨u, false, false, false, false, false, m⟩, none, 0⟩, (s.view k).2)) :
    (ipcRightCopyinUndo (s₁.die p) k msgt ⟨some p, (ipcRightDncancel s p k).2⟩).view k =
      ((s.entry k).dead, bump (s.view k).2 p (-2)) := by
  have hdie : (s₁.die p).view k = (⟨⟨u, false, false, false, false, false, m⟩, none, 0⟩,
      bump (s.view k).2 p (-1)) := by
    rw [view_die, h1]
  have hentry : (s₁.die p).entry k = _ := congrArg fst hdie
  rw [view_undo_gone hentry, hdie, bump_bump, dncancel_soright (by rw [he]; exact hslot), he]
  by_cases hi : i = 0 <;> simp [Entry.dead, hb, hi]

theorem undo_kept (he : s.entry k = ⟨⟨u, true, false, false, false, false, m⟩, some (.port p), i⟩)
    (h1 : s₁.view k = (e, bump (s.view k).2 p 1))
    (hu : e = { s.entry k with bits := { (s.entry k).bits with
      urefs := if msgt = .copySend then u else u - 1 } })
    (hpos : 1 ≤ u) :
    (ipcRightCopyinUndo (s₁.die p) k msgt ⟨some p, none⟩).view k =
      ((s.entry k).dead, bump (s.view k).2 p (-2)) := by
  have hdie : (s₁.die p).view k = (e, bump (s.view k).2 p 0) := by
    rw [view_die, h1, bump_bump]
    rfl
  have hentry : (s₁.die p).entry k = e := congrArg fst hdie
  rw [he] at hu
  rw [view_undo_send (die_dead s₁ p) (hentry.trans hu), hdie, bump_bump]
  · rfl
  · rw [he]
    split
    · rfl
    · rw [Nat.sub_add_cancel hpos]

theorem view_moveSend_last
    (he : s.entry k = ⟨⟨1, true, false, false, false, false, m⟩, some (.port p), i⟩) :
    (moveSend s p k).1.view k =
        (⟨⟨0, false, false, false, false, false, m⟩, none, 0⟩, (s.view k).2) ∧
      (moveSend s p k).2 = (ipcRightDncancel s p k).2 := by
  obtain ⟨t, ht⟩ : ∃ t, (if m then ipcMarequestCancel
      (ipcReverseRemove (ipcRightDncancel s p k).1 k.1 p) k.1 k.2
      else ipcReverseRemove (ipcRightDncancel s p k).1 k.1 p) = t := ⟨_, rfl⟩
  have hview : t.view k = ({ s.entry k with request := 0 }, (s.view k).2) := by
    rw [← ht, view_cancelIf]
    exact view_dncancel
  have hentry : t.entry k = { s.entry k with request := 0 } := congrArg fst hview
  have heq : moveSend s p k = ((t.setEntry k { t.entry k with object := none }).setEntry k
      { (t.setEntry k { t.entry k with object := none }).entry k with
        bits := ⟨0, false, false, false, false, false, m⟩ }, (ipcRightDncancel s p k).2) := by
    rw [← ht, moveSend, he]
    rfl
  rw [heq]
  refine ⟨?_, rfl⟩
  rw [view_setEntry, view_setEntry, setEntry_self, hview, hentry]

theorem view_moveSendOnce
    (he : s.entry k = ⟨⟨1, false, false, true, false, false, m⟩, some (.port p), i⟩) :
    (moveSendOnce s p k).1.view k =
        (⟨⟨1, false, false, false, false, false, m⟩, none, 0⟩, (s.view k).2) ∧
      (moveSendOnce s p k).2 = (ipcRightDncancel s p k).2 := by
  have hentry : (ipcRightDncancel s p k).1.entry k = { s.entry k with request := 0 } :=
    congrArg fst view_dncancel
  refine ⟨?_, rfl⟩
  rw [moveSendOnce, view_setEntry, view_dncancel, hentry, he]

theorem Entry.Ok.pureSend (hok : e.Ok) (hs : e.bits.send) (hr : e.bits.receive = false)
    (hp : e.object = some (.port p)) :
    ∃ u m i, e = ⟨⟨u, true, false, false, false, false, m⟩, some (.port p), i⟩ := by
  cases hok <;> cases hs <;> cases hr
  cases hp
  exact ⟨_, _, _, rfl⟩

theorem Entry.Ok.pureSendOnce (hok : e.Ok) (hs : e.bits.sendOnce) (hp : e.object = some (.port p)) :
    ∃ u m i, e = ⟨⟨u, false, false, true, false, false, m⟩, some (.port p), i⟩ := by
  cases hok <;> cases hs
  cases hp
  exact ⟨_, _, _, rfl⟩

theorem undo_live (hmsgt : msgt = .copySend ∨ msgt = .moveSend ∨ msgt = .moveSendOnce)
    (hwf : s.WellFormed k) (hp : (s.entry k).object = some (.port p)) (ha : (s.port p).active)
    (hasks : msgt.asks (s.entry k).bits) (hr : (s.entry k).bits.receive = false) :
    (ipcRightCopyinUndo ((copyinLive s k msgt p).1.die p) k msgt
        ⟨some p, (copyinLive s k msgt p).2⟩).view k =
      ((s.entry k).dead, bump (s.view k).2 p (-2)) := by
  have hslot := hwf.request p hp ha
  rcases hmsgt with rfl | rfl | rfl
  · obtain ⟨u, m, i, he⟩ := hwf.ok.pureSend hasks hr hp
    have hu : 1 ≤ u := by simpa [he] using (hwf.send hasks).1
    exact undo_kept (e := s.entry k) he view_copySright (by rw [he]; rfl) hu
  · obtain ⟨u, m, i, he⟩ := hwf.ok.pureSend hasks hr hp
    have hu : 1 ≤ u := by simpa [he] using (hwf.send hasks).1
    rw [copyinLive]
    by_cases h1 : u = 1
    · subst h1
      obtain ⟨hview, hso⟩ := view_moveSend_last he
      rw [hso]
      exact undo_gone he rfl (by simpa [he] using hslot) hview
    · have heq : moveSend s p k = ((s.copySright p).setUrefs k (u - 1), none) := by
        rw [moveSend, he, if_neg h1]
      rw [heq]
      refine undo_kept he ?_ rfl hu
      rw [State.setUrefs, view_setEntry, view_copySright]
      rfl
  · obtain ⟨u, m, i, he⟩ := hwf.ok.pureSendOnce hasks hp
    have hu : u = 1 := by simpa [he] using (hwf.sendOnce hasks).1
    subst hu
    obtain ⟨hview, hso⟩ := view_moveSendOnce he
    show (ipcRightCopyinUndo ((moveSendOnce s p k).1.die p) k _ ⟨_, (moveSendOnce s p k).2⟩).view k = _
    exact undo_gone he rfl (by simpa [he] using hslot) hview

theorem State.WellFormed.urefs_pos (hwf : s.WellFormed k) (h : (s.entry k).bits.sendRights) :
    1 ≤ (s.entry k).bits.urefs := by
  rcases (Bool.or_eq_true _ _).mp h with hs | hs
  · exact (hwf.send hs).1
  · exact (hwf.sendOnce hs).1.ge

theorem view_checked (hwf : s.WellFormed k) (hsend : (s.entry k).bits.sendRights)
    (hp : (s.entry k).object = some (.port p)) (hentry : t.entry k = s.entry k)
    (ha : (t.port p).active = false) :
    (t.checked k).view k = ((s.entry k).dead, bump (t.view k).2 p (-1)) := by
  have hport : (t.entry k).port = some p := by rw [hentry, Entry.port, hp]
  have hm : ((s.entry k).bits.marequest && !(s.entry k).bits.send) = false := by
    cases hs : (s.entry k).bits.send with
    | true => exact Bool.and_false _
    | false =>
      have honce : (s.entry k).bits.sendOnce = true := by simpa [Bits.sendRights, hs] using hsend
      rw [(hwf.sendOnce honce).2]
      rfl
  rw [State.checked, hport]
  rw [view_check ha (by rw [hentry]; exact hm), hentry]

theorem checked_dead (hwf : s.WellFormed k) (hdead : (s.entry k).bits.deadName ∨
    ∃ p, (s.entry k).bits.sendRights ∧ (s.entry k).object = some (.port p) ∧
      (s.port p).active = false) :
    (s.checked k).entry k = (s.entry k).dead ∧ 1 ≤ (s.entry k).dead.bits.urefs := by
  have hle : (s.entry k).bits.urefs ≤ (s.entry k).dead.bits.urefs := by
    show _ ≤ if _ then _ else _
    split
    · exact Nat.le_succ _
    · exact le_rfl
  rcases hdead with hd | ⟨p, hsend, hp, ha⟩
  · obtain ⟨hu, -, hm⟩ := hwf.deadName hd
    refine ⟨?_, hu.trans hle⟩
    have hok := hwf.ok
    generalize he : s.entry k = e at hok hd hm
    cases hok <;> cases hd
    cases hm
    simp [State.checked, Entry.port, Entry.dead, Bits.zero, he]
  · exact ⟨congrArg fst (view_checked hwf hsend hp rfl ha), (hwf.urefs_pos hsend).trans hle⟩

/-- **Undoing a copyin of a right whose port died**: the entry and the references of the
ports are as `ipc_right_check` leaves them when nothing was copied in. A port does not die
while its receive right is in the entry. -/
theorem copyin_undo {deadok nomem : Bool}
    (hmsgt : msgt = .copySend ∨ msgt = .moveSend ∨ msgt = .moveSendOnce) (hwf : s.WellFormed k)
    (h : ipcRightCopyin s k msgt deadok nomem = (s₁, some c)) :
    (c.object = none → (ipcRightCopyinUndo s₁ k msgt c).view k = (s.checked k).view k ∧
      (s.checked k).entry k = (s.entry k).dead) ∧
    ∀ p, c.object = some p → (s.entry k).bits.receive = false →
      (ipcRightCopyinUndo (s₁.die p) k msgt c).view k = ((s.die p).checked k).view k ∧
      ((s.die p).checked k).entry k = (s.entry k).dead := by
  rcases copyin_some hmsgt hwf.ok h with ⟨hdead, hcopy⟩ | ⟨p, hp, ha, hasks, rfl, rfl⟩
  · obtain ⟨hentry, hu⟩ := checked_dead hwf hdead
    obtain ⟨hc, hview⟩ := view_undo_dead hu hentry hcopy
    refine ⟨fun _ => ⟨hview, hentry⟩, ?_⟩
    intro p hp
    rw [hc] at hp
    cases hp
  · refine ⟨nofun, ?_⟩
    intro q hq hr
    cases hq
    have hsend : (s.entry k).bits.sendRights := by
      unfold Disposition.asks at hasks
      split at hasks <;> simp [Bits.sendRights, hasks]
    have hentry : (s.die p).entry k = s.entry k := congrArg fst (view_die)
    have hview := view_checked hwf hsend hp hentry (die_dead s p)
    rw [undo_live hmsgt hwf hp ha hasks hr, hview, view_die, bump_bump]
    exact ⟨rfl, congrArg fst hview⟩

def lone : State where
  ports := {5}
  port := fun _ =>
    { active := true, references := 2, receiverName := 0, data := .special .kernel, pset := none,
      mscount := 0, srights := 1, sorights := 0, nsrequest := none, pdrequest := none
      dnrequests := some ⟨0, [.used 1 7]⟩ }
  pset := fun _ => ⟨false, 0, 0⟩
  space := fun _ => ⟨true, fun _ => none⟩
  entry := fun _ => ⟨⟨2, true, false, false, false, false, false⟩, some (.port 5), 1⟩
  marequest := fun _ => ⟨0, 0, 0⟩
  marequestTable := []
  timestamp := 0
  notifications := []

theorem lone_wellFormed (k : Key) : lone.WellFormed k where
  ok := .send 2 false 5 1
  send := fun _ => ⟨Nat.le_succ 1, (by decide : 2 < urefsMax)⟩
  sendOnce := nofun
  alone := by rintro (h | h) <;> cases h
  deadName := nofun
  request := fun _ _ _ _ => ⟨_, 1, 7, rfl, rfl⟩

/-- One of the rights is moved and the port dies: the other one, the one that comes back and
the one for the request are the user references of the dead name. -/
theorem lone_undo : ∃ s₁ c, ipcRightCopyin lone (0, 1) .moveSend false false = (s₁, some c) ∧
    (ipcRightCopyinUndo (s₁.die 5) (0, 1) .moveSend c).entry (0, 1) =
      ⟨⟨3, false, false, false, false, true, false⟩, none, 0⟩ := by
  refine ⟨_, _, rfl, ?_⟩
  have h := (@copyin_undo lone _ (0, 1) .moveSend _ false false (.inr (.inl rfl))
    (lone_wellFormed (0, 1)) rfl).2 5 rfl rfl
  exact (congrArg fst h.1).trans h.2

end Mach.Ipc.Rights
