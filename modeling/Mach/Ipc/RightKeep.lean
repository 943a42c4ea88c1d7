import Mach.Ipc.RightInv

/-!
# The functions on rights keep the invariant

One lemma for each function of `ipc/ipc_right.c`. The proofs follow the functions: each
goes through the changes in the order in which they are made, from a state without a
hole back to one.
-/

namespace Mach.Ipc.Rights

open State

section

variable {full : Prop} {hole : Option (Key × PortId)} {stray : Option PortId} {s : State}
  {naked : PortId → Nat} {pend : Key → Option Pending} {k : Key} {p : PortId}

structure SamePort (x y : Port) : Prop where
  active : x.active = y.active
  data : x.data = y.data
  receiverName : x.receiverName = y.receiverName
  pdrequest : x.pdrequest = y.pdrequest

theorem SamePort.refl (x : Port) : SamePort x x := ⟨rfl, rfl, rfl, rfl⟩

theorem samePort_setPort (s : State) (p : PortId) (x : Port) (h : SamePort x (s.port p))
    (q : PortId) : SamePort ((s.setPort p x).port q) (s.port q) := by
  by_cases hq : q = p
  · subst hq
    rwa [setPort_self]
  · rw [s.setPort_of_ne p q x hq]
    exact .refl _

theorem samePort_dropSright (q : PortId) : SamePort ((s.dropSright p).1.port q) (s.port q) := by
  simp only [State.dropSright]
  split
  · split <;> exact samePort_setPort s p _ (by exact ⟨rfl, rfl, rfl, rfl⟩) q
  · exact samePort_setPort s p _ (by exact ⟨rfl, rfl, rfl, rfl⟩) q

theorem dropSright_fields :
    (s.dropSright p).1.entry = s.entry ∧ (s.dropSright p).1.space = s.space := by
  simp only [State.dropSright]
  split
  · split <;> exact ⟨rfl, rfl⟩
  · exact ⟨rfl, rfl⟩

theorem samePort_clearReceiver (q : PortId) :
    SamePort ((ipcPortClearReceiver s p).port q) (s.port q) := by
  unfold ipcPortClearReceiver
  simp only
  split <;> exact samePort_setPort _ p _ (by exact ⟨rfl, rfl, rfl, rfl⟩) q

theorem samePort_dncancel (q : PortId) :
    SamePort ((ipcRightDncancel s p k).1.port q) (s.port q) := by
  unfold ipcRightDncancel
  split
  · exact .refl _
  obtain ⟨t, ht⟩ := ipcPortDncancel_eq (s.port p) (s.entry k).request
  simp only [setEntry_port]
  exact samePort_setPort s p _ (by rw [ht]; exact ⟨rfl, rfl, rfl, rfl⟩) q

theorem dncancel_space : (ipcRightDncancel s p k).1.space = s.space := by
  unfold ipcRightDncancel
  split <;> rfl

theorem cancelIf_fields (b : Bool) (sp : SpaceId) (n : Name) :
    (if b then ipcMarequestCancel s sp n else s).entry = s.entry ∧
      (if b then ipcMarequestCancel s sp n else s).port = s.port ∧
      (if b then ipcMarequestCancel s sp n else s).space = s.space := by
  split
  · unfold ipcMarequestCancel
    split <;> exact ⟨rfl, rfl, rfl⟩
  · exact ⟨rfl, rfl, rfl⟩

theorem not_pending (hp : pend k = none) (e : Entry) (m : Pending) (hm : pend k = some m) :
    PendingOk e m := by
  rw [hp] at hm
  cases hm

/-! ## Entries that go -/

/-- The invariant, and the reverse map of an active space does not have the entry: it can
be freed. -/
def Loose (full : Prop) (k : Key) (s : State) (naked : PortId → Nat)
    (pend : Key → Option Pending) : Prop :=
  ∃ hole, Inv full hole none s naked pend ∧ (∀ k' ≠ k, ¬ Excused hole k') ∧
    ((s.space k.1).isActive → ∀ q, (s.space k.1).isReverseMap q ≠ some k.2)

theorem Inv.loose (h : Inv full none none s naked pend)
    (hk : (s.space k.1).isActive → (s.entry k).bits.type ≠ .send) : Loose full k s naked pend := by
  refine ⟨none, h, unexcused, fun hs q hq => ?_⟩
  exact hk hs (h.sound k.1 q k.2 hs hq (not_excused_none _)).1

theorem Inv.looseRemove (h : Inv full none none s naked pend) (hk : (s.entry k).sendTo p) :
    Loose full k (ipcReverseRemove s k.1 p) naked pend := by
  have hremove := h.reverseRemove hk
  refine ⟨_, hremove, excused_only, fun hs q hq => ?_⟩
  obtain rfl := hremove.only k p rfl hs q hq
  rw [ipcReverseRemove, (setReverse_space s k.1 k.1 q q none).2, if_pos ⟨rfl, rfl⟩] at hq
  cases hq

section

variable (h : Loose full k s naked pend)
include h

theorem Loose.map {s' : State} (hspace : s'.space = s.space)
    (hinv : ∀ hole, (∀ k' ≠ k, ¬ Excused hole k') → Inv full hole none s naked pend → Inv full hole none s' naked pend) :
    Loose full k s' naked pend := by
  obtain ⟨hole, h, hhole, hmap⟩ := h
  exact ⟨hole, hinv hole hhole h, hhole, hspace ▸ hmap⟩

theorem Loose.dncancel (hk : (s.entry k).object = some (.port p)) :
    Loose full k (ipcRightDncancel s p k).1 naked pend :=
  h.map dncancel_space fun _ hhole h => (h.dncancel hhole hk).1

theorem Loose.cancelIf (b : Bool) (sp : SpaceId) (n : Name) :
    Loose full k (if b then ipcMarequestCancel s sp n else s) naked pend :=
  h.map (cancelIf_fields b sp n).2.2 fun _ _ h => h.cancelIf b sp n

theorem Loose.release (p : PortId) : Loose full k (s.release p) naked pend :=
  h.map rfl fun _ _ h => h.release p

end

theorem dncancel_entry : (ipcRightDncancel s p k).1.entry k = { s.entry k with request := 0 } := by
  unfold ipcRightDncancel
  split
  next h0 => rw [← h0]
  next h0 => exact Function.update_self ..

variable {e : Entry}

section

variable (h : Loose full k s naked pend) (hok : e.Ok) (he : ∀ q, e.object ≠ some (.port q)) (hp : pend k = none)
include h hok he hp

theorem Loose.setEntry (hk : (s.entry k).bits.receive → (s.entry k).object = some (.port p)) :
    Inv full none (if (s.entry k).bits.receive then some p else none) (s.setEntry k e) naked
      pend := by
  obtain ⟨hreceive, hsend, hrequest⟩ :
      e.bits.receive = false ∧ e.bits.type ≠ .send ∧ e.request = 0 := by
    cases hok <;> first | exact ⟨rfl, nofun, rfl⟩ | exact absurd rfl (he _)
  obtain ⟨hole, h, hhole, hmap⟩ := h
  have hreceives : Receives none (if (s.entry k).bits.receive then some p else none) s
      naked k e := by
    cases hb : (s.entry k).bits.receive with
    | true => exact h.loseReceive ⟨hb, hk hb⟩ hreceive
    | false =>
      exact h.keepReceive fun q => iff_of_false (not_receives hreceive q) (not_receives hb q)
  refine h.setEntry hhole (.inr rfl) hok (fun q hq => absurd hq (he q)) hreceives (fun _ hs => ?_)
    (h.keepRequests (.inl hrequest)) (not_pending hp e)
  exact ⟨fun q hq => absurd hq (hmap hs q), fun _ q hq => absurd hq.1 hsend⟩

omit h hok he hp in
theorem Loose.blank (h : Loose full k s naked pend) (hp : pend k = none)
    (hk : (s.entry k).bits.receive → (s.entry k).object = some (.port p)) :
    Inv full none (if (s.entry k).bits.receive then some p else none) (s.setEntry k .blank) naked
      pend :=
  h.setEntry .blank nofun hp hk

theorem Loose.setPlain (hk : (s.entry k).bits.receive = false) :
    Inv full none none (s.setEntry k e) naked pend := by
  have := h.setEntry (p := 0) hok he hp (by rw [hk]; exact nofun)
  rwa [hk] at this

end

/-! ## Dead ports -/

theorem Inv.check (h : Inv full none none s naked pend) (hk : (s.entry k).object = some (.port p))
    (hp : pend k = none) : Inv full none none (ipcRightCheck s p k).1 naked pend := by
  unfold ipcRightCheck
  split
  · exact h
  next hdead =>
    have hok := h.ok k
    generalize he : s.entry k = e at hok
    cases hok with
    | none | deadName | portSet => rw [he] at hk; cases hk
    | receive u m q i | sendReceive u m q i =>
      -- a port with a receiver is not dead
      rw [he] at hk
      cases hk
      exact absurd (h.receives k p ⟨by rw [he], by rw [he]⟩).2.1 hdead
    | send u m q i =>
      rw [he] at hk
      cases hk
      obtain ⟨hentry, -, -⟩ := cancelIf_fields m k.1 k.2
      have hloose := (h.cancelIf m k.1 k.2).looseRemove (by rw [hentry, he]; exact ⟨rfl, rfl⟩)
      refine (hloose.release p).setPlain (.deadName _ _) (by simp) hp ?_
      show ((if m = true then ipcMarequestCancel s k.1 k.2 else s).entry k).bits.receive = false
      rw [hentry, he]
    | sendOnce u m q i =>
      rw [he] at hk
      cases hk
      refine ((h.loose fun _ => ?_).release p).setPlain (.deadName _ _) (by simp) hp ?_
      · rw [he]
        exact nofun
      · show (s.entry k).bits.receive = false
        rw [he]

/-! ## Rights that go -/

theorem Inv.clearDestroy (h : Inv full hole (some p) s naked pend) (hactive : (s.port p).active)
    (circular : Bool) :
    Inv full hole none (ipcPortDestroy (ipcPortClearReceiver s p) p circular) naked pend :=
  (h.clearReceiver p).destroy ((samePort_clearReceiver p).active.trans hactive) circular

theorem plain_map {q : Option PortId} {f : PortId → Notification} (hf : ∀ p, (f p).Plain) :
    ∀ n ∈ q.map f, n.Plain := by
  intro n hn
  obtain ⟨p, -, rfl⟩ := Option.map_eq_some_iff.mp hn
  exact hf p

theorem plain_dropSright : ∀ n ∈ (s.dropSright p).2, n.Plain := by
  intro n hn
  simp only [State.dropSright] at hn
  split at hn
  · split at hn
    · cases hn
      exact plain_noSenders _ _
    · cases hn
  · cases hn

theorem Inv.dropRights {b : Bits} (h : Inv full hole (if b.receive then some p else none) s naked pend)
    (hactive : (s.port p).active) (name : Name) (dnrequest : Option PortId) (circular : Bool) :
    Inv full hole none (dropRights s b p name dnrequest circular) naked pend := by
  obtain ⟨r, hr⟩ : ∃ r, (if b.send then s.dropSright p else (s, none)) = r := ⟨_, rfl⟩
  have hinv : Inv full hole (if b.receive then some p else none) r.1 naked pend := by
    rw [← hr]
    cases b.send with
    | true => exact h.dropSright p
    | false => exact h
  have hsame : SamePort (r.1.port p) (s.port p) := by
    rw [← hr]
    split
    · exact samePort_dropSright p
    · exact .refl _
  have hplain : ∀ n ∈ r.2, n.Plain := by
    rw [← hr]
    split
    · exact plain_dropSright
    · exact nofun
  unfold Rights.dropRights
  rw [hr]
  refine Inv.notifyIf (Inv.notifyIf ?_ hplain) (plain_map (plain_portDeleted · name))
  cases hb : b.receive with
  | true =>
    rw [hb] at hinv
    exact hinv.clearDestroy (hsame.active.trans hactive) circular
  | false =>
    rw [hb] at hinv
    simp only [Bool.false_eq_true, if_false]
    split
    · exact hinv.notify (plain_sendOnce p)
    · exact hinv.release p

section

/-! `ipc_right_clean` leaves the entry to its caller, who frees it. It might as well be
freed first. -/

variable (s k) (e : Entry)

theorem notifyDead_setEntry (slots : List DnSlot) :
    (s.notifyDead slots).setEntry k e = (s.setEntry k e).notifyDead slots := by
  induction slots generalizing s with
  | nil => rfl
  | cons slot slots ih =>
    cases slot with
    | free next => exact ih s
    | used name q => exact ih _

theorem die_setEntry (p : PortId) : (s.die p).setEntry k e = (s.setEntry k e).die p := by
  have hrelease : ∀ t : State, (t.release p).setEntry k e = (t.setEntry k e).release p :=
    fun _ => rfl
  simp only [State.die]
  rw [hrelease, notifyDead_setEntry, setEntry_port]
  cases (s.port p).nsrequest <;> rfl

theorem ipcPortDestroy_setEntry (p : PortId) (circular : Bool) :
    (ipcPortDestroy s p circular).setEntry k e = ipcPortDestroy (s.setEntry k e) p circular := by
  unfold ipcPortDestroy
  rw [setEntry_port]
  cases (s.port p).pdrequest with
  | none => exact die_setEntry s k e p
  | some q =>
    cases circular with
    | true => exact die_setEntry _ k e p
    | false => rfl

theorem dropSright_setEntry (p : PortId) :
    (s.setEntry k e).dropSright p = ((s.dropSright p).1.setEntry k e, (s.dropSright p).2) := by
  simp only [State.dropSright, setEntry_port]
  by_cases h0 : (s.port p).srights - 1 = 0
  · simp only [h0, if_true]
    cases (s.port p).nsrequest <;> rfl
  · simp only [h0, if_false]
    rfl

theorem dropRights_setEntry (b : Bits) (p : PortId) (name : Name) (dn : Option PortId)
    (circular : Bool) :
    (dropRights s b p name dn circular).setEntry k e =
      dropRights (s.setEntry k e) b p name dn circular := by
  have hnotify : ∀ (t : State) (n : Option Notification),
      (t.notifyIf n).setEntry k e = (t.setEntry k e).notifyIf n := fun t n => by
    cases n <;> rfl
  have hclear : ∀ t : State,
      (ipcPortClearReceiver t p).setEntry k e = ipcPortClearReceiver (t.setEntry k e) p := by
    intro t
    simp only [ipcPortClearReceiver, setEntry_port]
    cases (t.port p).pset <;> rfl
  have hdrop : (if b.send then (s.setEntry k e).dropSright p else (s.setEntry k e, none)) =
      ((if b.send then s.dropSright p else (s, none)).1.setEntry k e,
        (if b.send then s.dropSright p else (s, none)).2) := by
    cases b.send with
    | true => exact dropSright_setEntry s k e p
    | false => rfl
  unfold dropRights
  rw [hdrop]
  simp only [hnotify]
  congr 2
  split
  · rw [ipcPortDestroy_setEntry, hclear]
  · split <;> rfl

end

theorem Loose.destroyPort (h : Loose full k s naked pend) (hk : (s.entry k).object = some (.port p))
    (hp : pend k = none) (circular : Bool) :
    Inv full none none (if (s.port p).active then
        dropRights ((ipcRightDncancel s p k).1.setEntry k .blank) (s.entry k).bits p k.2
          (ipcRightDncancel s p k).2 circular
      else (s.release p).setEntry k .blank) naked pend := by
  split
  next ha =>
    have hblank := (h.dncancel hk).blank hp (by rw [dncancel_entry]; exact fun _ => hk)
    rw [dncancel_entry] at hblank
    exact hblank.dropRights ((samePort_dncancel p).active.trans ha) _ _ _
  next ha =>
    refine (h.release p).setPlain .blank nofun hp ?_
    show (s.entry k).bits.receive = false
    obtain ⟨hole, h, -, -⟩ := h
    by_contra hb
    exact ha (h.receives k p ⟨by simpa using hb, hk⟩).2.1

theorem Entry.Ok.setUrefs (h : e.Ok) (n : Nat) :
    ({ e with bits := { e.bits with urefs := n } } : Entry).Ok := by
  cases h <;> constructor

theorem ipcRightCheck_live (ha : (s.port p).active) : ipcRightCheck s p k = (s, false) := if_pos ha

theorem ipcRightCheck_dead (ha : ¬ (s.port p).active) :
    (ipcRightCheck s p k).2 = true ∧ ((ipcRightCheck s p k).1.entry k).bits.type = .deadName := by
  unfold ipcRightCheck
  rw [if_neg ha]
  refine ⟨rfl, ?_⟩
  simp only [setEntry_self]
  rfl

theorem ipcRightCheck_cases {α : Type} {P : α → Prop} {dead live : State → α}
    (hdead : ((ipcRightCheck s p k).1.entry k).bits.type = .deadName → P (dead (ipcRightCheck s p k).1))
    (hlive : (s.port p).active → P (live s)) :
    P (match ipcRightCheck s p k with
      | (s, true) => dead s
      | (s, false) => live s) := by
  by_cases ha : (s.port p).active
  · rw [ipcRightCheck_live ha]
    exact hlive ha
  · obtain ⟨htrue, hname⟩ := ipcRightCheck_dead ha
    rw [show ipcRightCheck s p k = ((ipcRightCheck s p k).1, true) from Prod.ext rfl htrue]
    exact hdead hname

section

variable (h : Inv full none none s naked pend)
include h

theorem Inv.clean (hs : ¬ (s.space k.1).isActive) (hp : pend k = none) (circular : Bool) :
    Inv full none none ((ipcRightClean s k circular).setEntry k .blank) naked pend := by
  have hblank := (h.loose fun ha => absurd ha hs).blank (p := 0) hp
  have hport : ∀ q, (s.entry k).object = some (.port q) →
      Inv full none none ((if (s.port q).active then
        Rights.dropRights (ipcRightDncancel s q k).1 (s.entry k).bits q k.2
          (ipcRightDncancel s q k).2 circular
        else s.release q).setEntry k .blank) naked pend := by
    intro q hq
    -- the entry might as well go before the rights
    rw [apply_ite (State.setEntry · k .blank), dropRights_setEntry]
    exact (h.loose fun ha => absurd ha hs).destroyPort hq hp circular
  have hok := h.ok k
  unfold ipcRightClean
  generalize he : s.entry k = e at hok hblank hport ⊢
  cases hok with
  | none | deadName => exact hblank nofun
  | portSet u m i => exact (hblank nofun).setPset i _
  | send u m q i | receive u m q i | sendReceive u m q i | sendOnce u m q i => exact hport q rfl

theorem Inv.destroyRight (hp : pend k = none) (circular : Bool) :
    Inv full none none (ipcRightDestroy s k circular).2 naked pend := by
  have hok := h.ok k
  have hcancel := fun b => (cancelIf_fields (s := s) b k.1 k.2).1
  have hblank := fun hq => (h.loose hq).setPlain .blank nofun hp
  unfold ipcRightDestroy
  generalize he : s.entry k = e at hok hblank ⊢
  cases hok with
  | none => exact h
  | deadName => exact hblank (fun _ => by simp [Bits.type]) rfl
  | portSet u m i => exact (hblank (fun _ => by simp [Bits.type]) rfl).setPset i _
  | send u m q i =>
    have hsend : ((if m then ipcMarequestCancel s k.1 k.2 else s).entry k).sendTo q := by
      rw [hcancel, he]
      exact ⟨rfl, rfl⟩
    have hdestroy := ((h.cancelIf m k.1 k.2).looseRemove hsend).destroyPort hsend.2 hp circular
    rw [ipcReverseRemove, setReverse_entry, hcancel, he] at hdestroy
    exact hdestroy
  | receive u m q i | sendReceive u m q i | sendOnce u m q i =>
    have hentry := (congrFun (hcancel m) k).trans he
    have hloose := (h.cancelIf m k.1 k.2).loose fun _ => by rw [hentry]; simp [Bits.type]
    have hdestroy := hloose.destroyPort (by rw [hentry]) hp circular
    rw [hentry] at hdestroy
    exact hdestroy

/-! ## User references -/

theorem Inv.setUrefs (k : Key) (n : Nat) : Inv full none none (s.setUrefs k n) naked pend :=
  h.setSame unexcused ((h.ok k).setUrefs n) rfl rfl rfl (.inr rfl)

theorem Inv.keepDeadName (hk : (s.entry k).bits.type = .deadName) (hp : pend k = none) (n : Nat) :
    Inv full none none (keepDeadName s k n) naked pend := by
  unfold Rights.keepDeadName
  split
  · have hok := h.ok k
    refine (h.loose fun _ => ?_).setPlain .blank nofun hp ?_
    · rw [hk]
      exact nofun
    · generalize s.entry k = e at hok hk
      cases hok <;> first | rfl | cases hk
  · exact h.setUrefs k n

theorem Inv.afterCheck {α : Type} {P : α → Prop} {dead live : State → α}
    (hk : (s.entry k).object = some (.port p)) (hp : pend k = none)
    (hdead : ∀ s', Inv full none none s' naked pend → (s'.entry k).bits.type = .deadName → P (dead s'))
    (hlive : (s.port p).active → P (live s)) :
    P (match ipcRightCheck s p k with
      | (s, true) => dead s
      | (s, false) => live s) :=
  ipcRightCheck_cases (hdead _ (h.check hk hp)) hlive

theorem Inv.setKept (hok : e.Ok) (hobject : e.object = (s.entry k).object)
    (hreceive : e.bits.receive = (s.entry k).bits.receive) (hsend : (s.entry k).bits.type ≠ .send)
    (hsend' : e.bits.type ≠ .send) (hrequest : e.request = (s.entry k).request)
    (hpending : ∀ m, pend k = some m → PendingOk e m) :
    Inv full none none (s.setEntry k e) naked pend := by
  refine h.setEntry unexcused (.inl rfl) hok
    (fun q ho => h.object k q (hobject ▸ ho)) (h.keepReceive fun q => ?_)
    (fun hx => h.keepMapped hx fun q => ?_) (h.keepRequests (.inr ⟨hobject, hrequest⟩)) hpending
  · simp only [Entry.receives, hobject, hreceive]
  · exact iff_of_false (fun hq => hsend' hq.1) fun hq => hsend hq.1

end

variable {u i : Nat} {m : Bool}

theorem Entry.object_of_port (h : e.port = some p) : e.object = some (.port p) := by
  unfold Entry.port at h
  split at h
  next q hq => rw [hq, Option.some.inj h]
  · cases h

/-- What the functions that take references from an entry come to, but for `dropReceive`. -/
inductive Drops (s : State) (k : Key) : State → Prop
  | same : Drops s k s
  | urefs (n : Nat) : Drops s k (s.setUrefs k n)
  | deadName (n : Nat) (hk : (s.entry k).bits.type = .deadName) : Drops s k (keepDeadName s k n)
  | check {p : PortId} (hk : (s.entry k).object = some (.port p)) : Drops s k (ipcRightCheck s p k).1
  | checkName {p : PortId} (n : Nat) (hk : (s.entry k).object = some (.port p))
      (hname : ((ipcRightCheck s p k).1.entry k).bits.type = .deadName) :
      Drops s k (keepDeadName (ipcRightCheck s p k).1 k n)
  | send {p : PortId} {u i : Nat} {m : Bool} (ha : (s.port p).active)
      (he : s.entry k = ⟨⟨u, true, false, false, false, false, m⟩, some (.port p), i⟩) :
      Drops s k (dropSend s p k)
  | sendOnce {p : PortId} {u i : Nat} {m : Bool} (ha : (s.port p).active)
      (he : s.entry k = ⟨⟨u, false, false, true, false, false, m⟩, some (.port p), i⟩) :
      Drops s k (dropSendOnce s p k)
  | sendOfReceive {p : PortId} {u i : Nat} {m : Bool} (ha : (s.port p).active)
      (he : s.entry k = ⟨⟨u, true, true, false, false, false, m⟩, some (.port p), i⟩) :
      Drops s k (dropSendOfReceive s p k)
  | portSet {u : Nat} {m : Bool} {i : PsetId}
      (he : s.entry k = ⟨⟨u, false, false, false, true, false, m⟩, some (.pset i), 0⟩) :
      Drops s k (ipcPsetDestroy (s.setEntry k .blank) i)

section

variable (h : Inv full none none s naked pend)
include h

theorem Inv.dropSend
    (he : s.entry k = ⟨⟨u, true, false, false, false, false, m⟩, some (.port p), i⟩)
    (hp : pend k = none) : Inv full none none (dropSend s p k) naked pend := by
  have hentry := (congrFun (dropSright_fields (p := p)).1 k).trans he
  have hd := (h.dropSright p).dncancel unexcused (by rw [hentry])
  have hloose := hd.1.looseRemove (by rw [hd.2, hentry]; exact ⟨rfl, rfl⟩)
  unfold Rights.dropSend
  rw [he]
  refine Inv.notifyIf (Inv.notifyIf ?_ plain_dropSright) (plain_map (plain_portDeleted · k.2))
  refine ((hloose.cancelIf m k.1 k.2).release p).setPlain .blank nofun hp ?_
  show ((if m = true then _ else _ : State).entry k).bits.receive = false
  rw [(cancelIf_fields _ _ _).1, ipcReverseRemove, setReverse_entry, hd.2, hentry]

theorem Inv.dropSendOnce
    (he : s.entry k = ⟨⟨u, false, false, true, false, false, m⟩, some (.port p), i⟩)
    (hp : pend k = none) : Inv full none none (dropSendOnce s p k) naked pend := by
  have hloose := (h.loose fun _ => by rw [he]; exact nofun).dncancel (by rw [he])
  refine ((hloose.setPlain .blank nofun hp ?_).notify
    (plain_sendOnce p)).notifyIf (plain_map (plain_portDeleted · k.2))
  rw [dncancel_entry, he]

theorem Inv.dropSendOfReceive
    (he : s.entry k = ⟨⟨u, true, true, false, false, false, m⟩, some (.port p), i⟩)
    (hp : pend k = none) : Inv full none none (dropSendOfReceive s p k) naked pend := by
  have hentry := (congrFun (dropSright_fields (p := p)).1 k).trans he
  unfold Rights.dropSendOfReceive
  rw [he]
  refine ((h.dropSright p).setKept (.receive 0 m p i) ?_ ?_ ?_ nofun ?_
    (not_pending hp _)).notifyIf plain_dropSright
  all_goals rw [hentry]
  exact nofun

theorem Inv.dropReceive (hk : (s.entry k).receives p) (hp : pend k = none) (circular : Bool) :
    Inv full none none (dropReceive s p k circular) naked pend := by
  obtain ⟨hentry, hport, -⟩ := cancelIf_fields (s.entry k).bits.marequest k.1 k.2
  have hactive := (h.receives k p hk).2.1
  have htype : (s.entry k).bits.type ≠ .send := by
    have hok := h.ok k
    have hreceive := hk.1
    generalize s.entry k = e at hok hreceive
    cases hok <;> first | (cases hreceive; done) | exact nofun
  have hloose := (h.cancelIf (s.entry k).bits.marequest k.1 k.2).loose fun _ => by rwa [hentry]
  have hk' : (((if (s.entry k).bits.marequest then ipcMarequestCancel s k.1 k.2 else s).entry k).receives p) := by
    rwa [hentry]
  unfold Rights.dropReceive
  simp only
  split
  · have hdead := hloose.setEntry (.deadName (if (s.entry k).request ≠ 0 then
      (s.entry k).bits.urefs + 1 else (s.entry k).bits.urefs) false) nofun hp fun _ => hk'.2
    rw [hk'.1] at hdead
    exact hdead.clearDestroy (by rwa [setEntry_port, hport]) circular
  · have hblank := (hloose.dncancel hk'.2).blank hp (by rw [dncancel_entry]; exact fun _ => hk'.2)
    rw [dncancel_entry, hk'.1] at hblank
    refine Inv.notifyIf (hblank.clearDestroy ?_ circular) (plain_map (plain_portDeleted · k.2))
    refine (samePort_dncancel p).active.trans ?_
    rwa [hport]

theorem Inv.drops {s' : State} (hp : pend k = none) (hs : Drops s k s') :
    Inv full none none s' naked pend := by
  cases hs with
  | same => exact h
  | urefs n => exact h.setUrefs k n
  | deadName n hk => exact h.keepDeadName hk hp n
  | check hk => exact h.check hk hp
  | checkName n hk hname => exact (h.check hk hp).keepDeadName hname hp n
  | send ha he => exact h.dropSend he hp
  | sendOnce ha he => exact h.dropSendOnce he hp
  | sendOfReceive ha he => exact h.dropSendOfReceive he hp
  | portSet he =>
    have hloose := h.loose fun _ => by rw [he]; exact nofun
    exact (hloose.setPlain .blank nofun hp (by rw [he])).setPset _ _

theorem Inv.dealloc_drops : Drops s k (ipcRightDealloc s k).2 := by
  have hok := h.ok k
  unfold ipcRightDealloc
  generalize he : s.entry k = e at hok
  cases hok with
  | none | portSet | receive => exact .same
  | deadName u m => exact .deadName _ (by rw [he]; rfl)
  | send u m q i =>
    refine ipcRightCheck_cases (P := fun r : KernReturn × State => Drops s k r.2)
      (.checkName _ (by rw [he])) fun ha => ?_
    split
    · exact .send ha he
    · exact .urefs _
  | sendOnce u m q i =>
    exact ipcRightCheck_cases (P := fun r : KernReturn × State => Drops s k r.2)
      (.checkName _ (by rw [he])) fun ha => .sendOnce ha he
  | sendReceive u m q i =>
    change Drops s k (if u = 1 then _ else _ : KernReturn × State).2
    split
    · exact .sendOfReceive (h.receives k q ⟨by rw [he], by rw [he]⟩).2.1 he
    · exact .urefs _

theorem Inv.delta_drops (right : PortRight) (delta : Int) (circular : Bool) :
    Drops s k (ipcRightDelta s k right delta circular).2 ∨ right = .receive ∧ delta = -1 ∧
      ∃ p, (s.entry k).receives p ∧
        (ipcRightDelta s k right delta circular).2 = Rights.dropReceive s p k circular := by
  have hok := h.ok k
  unfold ipcRightDelta
  generalize he : s.entry k = e at hok
  cases right with
  | portSet =>
    left
    cases hok with
    | portSet u m i =>
      simp only [not_true, if_false]
      split
      · exact .same
      split
      · exact .same
      · exact .portSet he
    | _ => exact .same
  | receive =>
    simp only
    split
    · exact .inl .same
    next hreceive =>
      split
      · exact .inl .same
      split
      · exact .inl .same
      next hdelta =>
        split
        next q hq =>
          exact .inr ⟨trivial, not_not.mp hdelta, q, ⟨not_not.mp hreceive, Entry.object_of_port hq⟩, rfl⟩
        · exact .inl .same
  | sendOnce =>
    left
    cases hok with
    | sendOnce u m q i =>
      simp only [not_true, if_false]
      split
      · exact .same
      refine ipcRightCheck_cases (P := fun r : KernReturn × State => Drops s k r.2)
        (fun _ => .check (by rw [he])) fun ha => ?_
      split
      · exact .same
      · exact .sendOnce ha he
    | _ => exact .same
  | deadName =>
    left
    cases hok with
    | send u m q i | sendReceive u m q i | sendOnce u m q i =>
      refine ipcRightCheck_cases (P := fun r : KernReturn × State => Drops s k r.2)
        (fun hname => ?_) fun _ => .same
      simp only
      split
      · exact .check (by rw [he])
      split
      · exact .check (by rw [he])
      · exact .checkName _ (by rw [he]) hname
    | deadName u m =>
      change Drops s k (if urefsUnderflow _ _ then _ else _ : KernReturn × State).2
      split
      · exact .same
      split
      · exact .same
      · exact .deadName _ (by rw [he]; rfl)
    | _ => exact .same
  | send =>
    left
    cases hok with
    | send u m q i | sendReceive u m q i =>
      simp only [not_true, if_false]
      split
      · exact .same
      split
      · exact .same
      · refine ipcRightCheck_cases (P := fun r : KernReturn × State => Drops s k r.2)
          (fun _ => .check (by rw [he])) fun ha => ?_
        split
        · first | exact .send ha he | exact .sendOfReceive ha he
        · exact .urefs _
    | _ => exact .same

theorem Inv.delta (hp : pend k = none) (right : PortRight) (delta : Int) (circular : Bool) :
    Inv full none none (ipcRightDelta s k right delta circular).2 naked pend := by
  rcases h.delta_drops right delta circular with hs | ⟨-, -, p, hk, heq⟩
  · exact h.drops hp hs
  · rw [heq]
    exact h.dropReceive hk hp circular

end

end

end Mach.Ipc.Rights
