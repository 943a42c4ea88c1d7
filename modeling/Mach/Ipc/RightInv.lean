import Mathlib.Data.Set.Finite.Basic
import Mach.Ipc.RightSystem

/-!
# Well-formed entries, ports and reverse maps

What holds of entries, ports and the reverse maps of spaces in every state: the type of
an entry fits its object, a port and the entry with its receive right know each other,
the reverse map leads to pure send rights, and the dead-name requests of the entries
of a port are in different slots of its table.

The functions on rights change these one after the other, and in between something is
missing. `Inv` has two places for it: an entry (`hole`, with a port) which the reverse
map need not have right, and a port (`stray`) whose receive right nobody has. Where `full` holds, the
reverse map also knows every pure send right; that is so as long as there is memory
for it.
-/

namespace Mach.Ipc.Rights

open Function Multiset State Option

/-! ## Entries -/

/-- The entries there are: the types that are no `strange` ones, with their objects. -/
inductive Entry.Ok : Entry → Prop
  | none (u : Nat) (m : Bool) : Ok ⟨⟨u, false, false, false, false, false, m⟩, .none, 0⟩
  | deadName (u : Nat) (m : Bool) : Ok ⟨⟨u, false, false, false, false, true, m⟩, .none, 0⟩
  | portSet (u : Nat) (m : Bool) (i : PsetId) :
      Ok ⟨⟨u, false, false, false, true, false, m⟩, some (.pset i), 0⟩
  | send (u : Nat) (m : Bool) (p : PortId) (i : Nat) :
      Ok ⟨⟨u, true, false, false, false, false, m⟩, some (.port p), i⟩
  | receive (u : Nat) (m : Bool) (p : PortId) (i : Nat) :
      Ok ⟨⟨u, false, true, false, false, false, m⟩, some (.port p), i⟩
  | sendReceive (u : Nat) (m : Bool) (p : PortId) (i : Nat) :
      Ok ⟨⟨u, true, true, false, false, false, m⟩, some (.port p), i⟩
  | sendOnce (u : Nat) (m : Bool) (p : PortId) (i : Nat) :
      Ok ⟨⟨u, false, false, true, false, false, m⟩, some (.port p), i⟩

theorem Entry.Ok.blank : Entry.blank.Ok := .none 0 false

def Entry.sendTo (e : Entry) (p : PortId) : Prop :=
  e.bits.type = .send ∧ e.object = some (.port p)

def Entry.receives (e : Entry) (p : PortId) : Prop :=
  e.bits.receive ∧ e.object = some (.port p)

def Port.slotUsed (x : Port) (i : Nat) : Prop :=
  ∃ t name q, x.dnrequests = some t ∧ t.slots[i - 1]? = some (.used name q)

structure PendingOk (e : Entry) (m : Pending) : Prop where
  gone : m.copied.soright.isSome → e.bits.type = .none
  same : e.bits.type ≠ .none → e.bits.type ≠ .deadName →
    ∃ p, m.copied.object = some p ∧ e.object = some (.port p)

/-! ## The invariant -/

def nakedReceives (naked : PortId → Nat) (s : State) (p : PortId) : Nat :=
  naked p + s.noted.count (.receive p)

def Excused (hole : Option (Key × PortId)) (k : Key) : Prop := ∃ p, hole = some (k, p)

theorem not_excused_none (k : Key) : ¬ Excused none k := nofun

theorem excused_some {k k' : Key} {p : PortId} : Excused (some (k, p)) k' ↔ k' = k := by
  constructor
  · rintro ⟨q, h⟩
    exact (congrArg Prod.fst (some.inj h)).symm
  · rintro rfl
    exact ⟨p, rfl⟩

theorem unexcused {k : Key} : ∀ k' ≠ k, ¬ Excused none k' := fun k' _ => not_excused_none k'

theorem excused_only {k : Key} {p : PortId} : ∀ k' ≠ k, ¬ Excused (some (k, p)) k' :=
  fun _ hk => mt excused_some.mp hk

structure Inv (full : Prop) (hole : Option (Key × PortId)) (stray : Option PortId) (s : State)
    (naked : PortId → Nat) (pend : Key → Option Pending) : Prop where
  known : ∀ p, (s.port p).active → p ∈ s.ports
  finite : {k | (s.entry k).bits.type ≠ .none}.Finite
  ok : ∀ k, (s.entry k).Ok
  object : ∀ k p, (s.entry k).object = some (.port p) → p ∈ s.ports
  receives : ∀ k p, (s.entry k).receives p → stray ≠ some p ∧ (s.port p).active ∧
    (s.port p).data = .receiver k.1 ∧ (s.port p).receiverName = k.2
  receiver : ∀ p sp, stray ≠ some p → (s.port p).active → (s.port p).data = .receiver sp →
    (s.space sp).isActive → (s.entry (sp, (s.port p).receiverName)).receives p
  naked : ∀ p, nakedReceives naked s p ≠ 0 → nakedReceives naked s p = 1 ∧ stray ≠ some p ∧
    (s.port p).active ∧ ∃ dest, (s.port p).data = .destination dest
  sound : ∀ sp p n, (s.space sp).isActive → (s.space sp).isReverseMap p = some n →
    ¬ Excused hole (sp, n) → (s.entry (sp, n)).sendTo p
  only : ∀ k p, hole = some (k, p) → (s.space k.1).isActive →
    ∀ q, (s.space k.1).isReverseMap q = some k.2 → q = p
  merged : full → ∀ sp p n, (s.space sp).isActive → (s.space sp).isReverseMap p = some n →
    ¬ Excused hole (sp, n) → (s.port p).active → (s.port p).data ≠ .receiver sp
  complete : full → ∀ k p, (s.space k.1).isActive → ¬ Excused hole k → (s.entry k).sendTo p →
    (s.space k.1).isReverseMap p = some k.2
  request : ∀ k p, (s.entry k).object = some (.port p) → (s.port p).active →
    (s.entry k).request ≠ 0 → (s.port p).slotUsed (s.entry k).request
  apart : ∀ k k' p, (s.entry k).object = some (.port p) → (s.entry k').object = some (.port p) →
    (s.port p).active → (s.entry k).request ≠ 0 → (s.entry k).request = (s.entry k').request → k = k'
  pending : ∀ k m, pend k = some m → PendingOk (s.entry k) m

section

variable {full : Prop} {hole : Option (Key × PortId)} {stray : Option PortId} {s : State}
  {naked : PortId → Nat} {pend : Key → Option Pending}

theorem Inv.congr {s' : State} {naked' : PortId → Nat} (h : Inv full hole stray s naked pend)
    (hnaked : ∀ p, nakedReceives naked' s' p = nakedReceives naked s p)
    (hs : (s'.ports, s'.port, s'.space, s'.entry) = (s.ports, s.port, s.space, s.entry)) :
    Inv full hole stray s' naked' pend := by
  simp only [Prod.mk.injEq] at hs
  obtain ⟨hports, hport, hspace, hentry⟩ := hs
  obtain ⟨h1, h2, h3, h4, h5, h6, h7, h8, h9, h10, h11, h12, h13, h14⟩ := h
  constructor <;> simpa only [hports, hport, hspace, hentry, hnaked]

def Notification.Plain (n : Notification) : Prop := ∀ p, n.rights.count (.receive p) = 0

theorem noted_notify (n : Notification) : (s.notify n).noted = n.rights + s.noted := rfl

theorem Inv.notify {n : Notification} (h : Inv full hole stray s naked pend) (hn : n.Plain) :
    Inv full hole stray (s.notify n) naked pend := by
  refine h.congr (fun p => ?_) rfl
  rw [nakedReceives, noted_notify, count_add, hn p, Nat.zero_add]
  rfl

theorem Inv.notifyIf {n : Option Notification} (h : Inv full hole stray s naked pend)
    (hn : ∀ m ∈ n, m.Plain) : Inv full hole stray (s.notifyIf n) naked pend := by
  cases n with
  | none => exact h
  | some n => exact h.notify (hn n rfl)

variable {p q : PortId} {k : Key} {e : Entry} {x : Port}

theorem Inv.notifyDestroyed (h : Inv full hole stray s (update naked p (naked p + 1)) pend) :
    Inv full hole stray (s.notify (.portDestroyed q p)) naked pend := by
  refine h.congr (fun r => ?_) rfl
  have hrights : (Notification.portDestroyed q p).rights = {.sendOnce q, .receive p} := rfl
  rw [nakedReceives, nakedReceives, noted_notify, hrights]
  by_cases hr : r = p
  · subst hr
    simp
    omega
  · simp [hr]

section

variable (h : Inv full hole stray s naked pend)
include h

theorem Inv.setPset (i : PsetId) (x : Pset) : Inv full hole stray (s.setPset i x) naked pend :=
  h.congr (fun _ => rfl) rfl

theorem Inv.marequestCancel (sp : SpaceId) (n : Name) :
    Inv full hole stray (ipcMarequestCancel s sp n) naked pend := by
  unfold ipcMarequestCancel
  split
  · exact h
  · exact h.congr (fun _ => rfl) rfl

theorem Inv.cancelIf (b : Bool) (sp : SpaceId) (n : Name) :
    Inv full hole stray (if b then ipcMarequestCancel s sp n else s) naked pend := by
  split
  · exact h.marequestCancel sp n
  · exact h

end

section

variable (q : PortId) (name : Name) (count : Count)

theorem plain_portDeleted : (Notification.portDeleted q name).Plain := by
  simp [Notification.Plain, Notification.rights]

theorem plain_msgAccepted : (Notification.msgAccepted q name).Plain := plain_portDeleted q name

theorem plain_noSenders : (Notification.noSenders q count).Plain := plain_portDeleted q 0

theorem plain_sendOnce : (Notification.sendOnce q).Plain := plain_portDeleted q 0

theorem plain_deadName : (Notification.deadName q name).Plain := plain_portDeleted q name

end

theorem Inv.excuse (h : Inv full none stray s naked pend) (hk : ∀ q, (s.entry k).sendTo q → q = p) :
    Inv full (some (k, p)) stray s naked pend :=
  { h with
    sound := fun sp p n ha hr _ => h.sound sp p n ha hr (not_excused_none _)
    only := by
      intro k p he ha q hr
      cases he
      exact hk q (h.sound _ q _ ha hr (not_excused_none _))
    merged := fun hf sp p n ha hr _ => h.merged hf sp p n ha hr (not_excused_none _)
    complete := fun hf k p ha _ he => h.complete hf k p ha (not_excused_none _) he }

theorem setReverse_space (s : State) (sp sp' : SpaceId) (p p' : PortId) (n : Option Name) :
    ((s.setReverse sp p n).space sp').isActive = (s.space sp').isActive ∧
      ((s.setReverse sp p n).space sp').isReverseMap p' =
        if sp' = sp ∧ p' = p then n else (s.space sp').isReverseMap p' := by
  by_cases hsp : sp' = sp
  · subst hsp
    by_cases hp : p' = p
    · subst hp
      simp [State.setReverse]
    · simp [State.setReverse, hp]
  · simp [State.setReverse, hsp]

theorem Entry.sendTo.unique (hp : e.sendTo p) (hq : e.sendTo q) : q = p := by
  have := hq.2.symm.trans hp.2
  cases this
  rfl

theorem Inv.reverseRemove (h : Inv full none stray s naked pend) (hk : (s.entry k).sendTo p) :
    Inv full (some (k, p)) stray (ipcReverseRemove s k.1 p) naked pend := by
  have hspace := fun sp q => setReverse_space s k.1 sp p q none
  have hx := h.excuse fun q hq => hk.unique hq
  have hactive : ∀ sp, ((ipcReverseRemove s k.1 p).space sp).isActive = (s.space sp).isActive :=
    fun sp => (hspace sp p).1
  have hmap : ∀ sp q n, ((ipcReverseRemove s k.1 p).space sp).isReverseMap q = some n →
      (s.space sp).isReverseMap q = some n := by
    intro sp q n hr
    rw [ipcReverseRemove, (hspace sp q).2] at hr
    split at hr
    · cases hr
    · exact hr
  refine { hx with
    receiver := fun q sp hq ha hd hs => hx.receiver q sp hq ha hd (hactive sp ▸ hs)
    sound := fun sp q n ha hr => hx.sound sp q n (hactive sp ▸ ha) (hmap sp q n hr)
    only := fun k' q he ha q' hr => hx.only k' q he (hactive _ ▸ ha) q' (hmap _ _ _ hr)
    merged := fun hf sp q n ha hr => hx.merged hf sp q n (hactive sp ▸ ha) (hmap sp q n hr)
    complete := fun hf k' q ha hn he => ?_ }
  rw [hactive] at ha
  rw [ipcReverseRemove, (hspace k'.1 q).2]
  have hr := h.complete hf k' q ha (not_excused_none _) he
  split
  next heq =>
    -- the map knew of one entry only
    obtain ⟨hsp, rfl⟩ := heq
    have hr' := h.complete hf k q (hsp ▸ ha) (not_excused_none _) hk
    rw [hsp, hr'] at hr
    exact absurd (Prod.ext hsp (some.inj hr).symm) (mt excused_some.mpr hn)
  next => exact hr

theorem ipcReverseInsert_space (s : State) (sp sp' : SpaceId) (p p' : PortId) (n : Name)
    (nomem : Bool) :
    ((ipcReverseInsert s sp p n nomem).space sp').isActive = (s.space sp').isActive ∧
      (((ipcReverseInsert s sp p n nomem).space sp').isReverseMap p' =
        (s.space sp').isReverseMap p' ∨
      (sp' = sp ∧ p' = p ∧ nomem = false ∧ (s.space sp).isReverseMap p = none ∧
        ((ipcReverseInsert s sp p n nomem).space sp').isReverseMap p' = some n)) := by
  unfold ipcReverseInsert
  split
  · exact ⟨rfl, .inl rfl⟩
  next hnone =>
    split
    · exact ⟨rfl, .inl rfl⟩
    next hmem =>
      obtain ⟨h1, h2⟩ := setReverse_space s sp sp' p p' (some n)
      refine ⟨h1, ?_⟩
      rw [h2]
      split
      next heq => exact .inr ⟨heq.1, heq.2, by simpa using hmem, hnone, rfl⟩
      next => exact .inl rfl

theorem ipcReverseInsert_fields (s : State) (sp : SpaceId) (p : PortId) (n : Name) (nomem : Bool) :
    (ipcReverseInsert s sp p n nomem).entry = s.entry ∧
      (ipcReverseInsert s sp p n nomem).port = s.port ∧
      (ipcReverseInsert s sp p n nomem).ports = s.ports ∧
      (ipcReverseInsert s sp p n nomem).notifications = s.notifications := by
  unfold ipcReverseInsert
  split
  · exact ⟨rfl, rfl, rfl, rfl⟩
  · split <;> exact ⟨rfl, rfl, rfl, rfl⟩

theorem Inv.reverseInsert (h : Inv full none stray s naked pend) (hk : ∀ q, ¬ (s.entry k).sendTo q)
    (nomem : Bool) :
    Inv full (some (k, p)) stray (ipcReverseInsert s k.1 p k.2 nomem) naked pend := by
  obtain ⟨hentry, hport, hports, hnotes⟩ := ipcReverseInsert_fields s k.1 p k.2 nomem
  have hspace := fun sp q => ipcReverseInsert_space s k.1 sp p q k.2 nomem
  have hx : Inv full (some (k, p)) stray s naked pend := h.excuse fun q hq => absurd hq (hk q)
  have hactive : ∀ sp, ((ipcReverseInsert s k.1 p k.2 nomem).space sp).isActive =
      (s.space sp).isActive := fun sp => (hspace sp p).1
  have hold : ∀ {sp q n}, ((ipcReverseInsert s k.1 p k.2 nomem).space sp).isReverseMap q = some n →
      ¬ Excused (some (k, p)) (sp, n) → (s.space sp).isReverseMap q = some n := by
    intro sp q n hr hn
    rcases (hspace sp q).2 with heq | ⟨rfl, rfl, -, -, heq⟩
    · exact heq ▸ hr
    · obtain rfl := some.inj (heq.symm.trans hr)
      exact absurd ⟨q, rfl⟩ hn
  refine ⟨?_, ?_, ?_, ?_, ?_, ?_, ?_, fun sp q n ha hr hn => ?_, fun k' q he ha q' hr => ?_,
    fun hf sp q n ha hr hn => ?_, fun hf k' q ha hn he => ?_, ?_, ?_, ?_⟩
  · simpa only [hport, hports] using hx.known
  · simpa only [hentry] using hx.finite
  · simpa only [hentry] using hx.ok
  · simpa only [hentry, hports] using hx.object
  · simpa only [hentry, hport] using hx.receives
  · simpa only [hentry, hport, hactive] using hx.receiver
  · simpa only [hport, nakedReceives, State.noted, hnotes] using hx.naked
  · rw [hactive] at ha
    rw [hentry]
    exact hx.sound sp q n ha (hold hr hn) hn
  · cases he
    rw [hactive] at ha
    rcases (hspace k.1 q').2 with heq | ⟨-, rfl, -, -, -⟩
    · exact hx.only k p rfl ha q' (heq ▸ hr)
    · rfl
  · rw [hactive] at ha
    rw [hport]
    exact hx.merged hf sp q n ha (hold hr hn) hn
  · rw [hactive] at ha
    rw [hentry] at he
    have hr := h.complete hf k' q ha (not_excused_none _) he
    rcases (hspace k'.1 q).2 with heq | ⟨hsp, rfl, -, hnone, -⟩
    · rw [heq, hr]
    · rw [hsp, hnone] at hr
      cases hr
  · simpa only [hentry, hport] using hx.request
  · simpa only [hentry, hport] using hx.apart
  · simpa only [hentry] using hx.pending

theorem Entry.receives.unique (hp : e.receives p) (hq : e.receives q) : q = p := by
  have := hq.2.symm.trans hp.2
  cases this
  rfl

theorem not_receives (he : e.bits.receive = false) (p : PortId) : ¬ e.receives p := by
  intro h
  rw [Entry.receives, he] at h
  cases h.1

theorem ipcPortDncancel_eq (x : Port) (i : Nat) :
    ∃ t, (ipcPortDncancel x i).1 = { x with dnrequests := t } := by
  unfold ipcPortDncancel
  split
  · exact ⟨_, rfl⟩
  · split <;> exact ⟨_, rfl⟩

theorem Port.slotUsed.dncancel {i j : Nat} (h : x.slotUsed j) (hi : i ≠ 0) (hj : j ≠ 0)
    (hne : j ≠ i) : (ipcPortDncancel x i).1.slotUsed j := by
  obtain ⟨t, n, q, ht, hslot⟩ := h
  unfold ipcPortDncancel
  rw [ht]
  simp only
  split
  · refine ⟨_, n, q, rfl, ?_⟩
    rw [List.getElem?_set_ne (by omega)]
    exact hslot
  · exact ⟨t, n, q, ht, hslot⟩

section

variable (h : Inv full hole stray s naked pend)
include h

theorem Inv.notifyDead (slots : List DnSlot) :
    Inv full hole stray (s.notifyDead slots) naked pend := by
  induction slots generalizing s with
  | nil => exact h
  | cons slot slots ih =>
    cases slot with
    | free next => exact ih h
    | used name q => exact ih (h.notify (plain_deadName q name))

/-! ## One port changes -/

theorem Inv.setTable (p : PortId) (x : Port) (hactive : x.active = (s.port p).active)
    (hdata : x.data = (s.port p).data) (hname : x.receiverName = (s.port p).receiverName)
    (hslot : ∀ k, (s.entry k).object = some (.port p) → (s.port p).active →
      (s.entry k).request ≠ 0 → x.slotUsed (s.entry k).request) :
    Inv full hole stray (s.setPort p x) naked pend := by
  have hport : ∀ q, ((s.setPort p x).port q).active = (s.port q).active ∧
      ((s.setPort p x).port q).data = (s.port q).data ∧
      ((s.setPort p x).port q).receiverName = (s.port q).receiverName := by
    exact s.setPort_cases p x ⟨hactive, hdata, hname⟩ fun _ _ => ⟨rfl, rfl, rfl⟩
  have hrequest : ∀ k q, (s.entry k).object = some (.port q) → (s.port q).active →
      (s.entry k).request ≠ 0 → ((s.setPort p x).port q).slotUsed (s.entry k).request := by
    intro k
    exact s.setPort_cases p x (hslot k) fun q _ => h.request k q
  obtain ⟨h1, h2, h3, h4, h5, h6, h7, h8, h9, h10, h11, -, h13, h14⟩ := h
  refine ⟨?_, h2, h3, h4, ?_, ?_, ?_, h8, h9, ?_, h11, ?_, ?_, h14⟩
  · simpa only [setPort_ports, (hport _).1] using h1
  · simpa only [setPort_entry, (hport _).1, (hport _).2.1, (hport _).2.2] using h5
  · simpa only [setPort_entry, setPort_space, (hport _).1, (hport _).2.1, (hport _).2.2] using h6
  · have hnaked : nakedReceives naked (s.setPort p x) = nakedReceives naked s := rfl
    simpa only [hnaked, (hport _).1, (hport _).2.1] using h7
  · simpa only [setPort_space, (hport _).1, (hport _).2.1] using h10
  · simpa only [setPort_entry, (hport _).1] using hrequest
  · simpa only [setPort_entry, (hport _).1] using h13

theorem Inv.setPort (p : PortId) (x : Port) (hx : (x.active, x.data, x.receiverName, x.dnrequests) =
      ((s.port p).active, (s.port p).data, (s.port p).receiverName, (s.port p).dnrequests)) :
    Inv full hole stray (s.setPort p x) naked pend := by
  simp only [Prod.mk.injEq] at hx
  obtain ⟨hactive, hdata, hname, hdn⟩ := hx
  refine h.setTable p x hactive hdata hname fun k ho ha h0 => ?_
  obtain ⟨t, n, q, ht, hslot⟩ := h.request k p ho ha h0
  exact ⟨t, n, q, hdn.trans ht, hslot⟩

theorem Inv.release (p : PortId) : Inv full hole stray (s.release p) naked pend := h.setPort p _ rfl

theorem Inv.reference (p : PortId) : Inv full hole stray (s.reference p) naked pend := h.setPort p _ rfl

theorem Inv.copySright (p : PortId) : Inv full hole stray (s.copySright p) naked pend :=
  h.setPort p _ rfl

theorem Inv.releaseSonce (p : PortId) : Inv full hole stray (ipcPortReleaseSonce s p) naked pend :=
  h.setPort p _ rfl

theorem Inv.dropSright (p : PortId) : Inv full hole stray (s.dropSright p).1 naked pend := by
  simp only [State.dropSright]
  split
  · split
    · exact h.setPort p _ rfl
    · exact h.setPort p _ rfl
  · exact h.setPort p _ rfl

theorem Inv.clearReceiver (p : PortId) :
    Inv full hole stray (ipcPortClearReceiver s p) naked pend := by
  unfold ipcPortClearReceiver
  simp only
  split
  · exact (h.setPset _ _).setPort p _ rfl
  · exact h.setPort p _ rfl

/-! ## The reverse map changes -/

/-! ## One entry changes -/

structure Mapped (full : Prop) (s : State) (k : Key) (e : Entry) : Prop where
  sound : ∀ p, (s.space k.1).isReverseMap p = some k.2 → e.sendTo p ∧
    (full → (s.port p).active → (s.port p).data ≠ .receiver k.1)
  complete : full → ∀ p, e.sendTo p → (s.space k.1).isReverseMap p = some k.2

def Requests (s : State) (k : Key) (e : Entry) : Prop :=
  ∀ p, e.object = some (.port p) → (s.port p).active → e.request ≠ 0 →
    (s.port p).slotUsed e.request ∧
    ∀ k' ≠ k, (s.entry k').object = some (.port p) → (s.entry k').request ≠ e.request

structure Receives (stray stray' : Option PortId) (s : State) (naked : PortId → Nat) (k : Key)
    (e : Entry) : Prop where
  here : ∀ p, e.receives p → stray' ≠ some p ∧ (s.port p).active ∧
    (s.port p).data = .receiver k.1 ∧ (s.port p).receiverName = k.2
  others : ∀ k' ≠ k, ∀ p, (s.entry k').receives p → stray' ≠ some p
  back : (s.space k.1).isActive → ∀ p, stray' ≠ some p → (s.port p).active →
    (s.port p).data = .receiver k.1 → (s.port p).receiverName = k.2 → e.receives p
  stray : ∀ p sp, stray' ≠ some p → (s.port p).data = .receiver sp →
    (sp, (s.port p).receiverName) ≠ k → stray ≠ some p
  naked : ∀ p, nakedReceives naked s p ≠ 0 → stray' ≠ some p

theorem Inv.setEntry {hole' : Option (Key × PortId)} {stray' : Option PortId}
    (hhole : ∀ k' ≠ k, ¬ Excused hole k') (hhole' : hole' = hole ∨ hole' = none) (hok : e.Ok)
    (hobject : ∀ p, e.object = some (.port p) → p ∈ s.ports)
    (hreceives : Receives stray stray' s naked k e)
    (hmapped : ¬ Excused hole' k → (s.space k.1).isActive → Mapped full s k e)
    (hrequest : Requests s k e) (hpending : ∀ m, pend k = some m → PendingOk e m) :
    Inv full hole' stray' (s.setEntry k e) naked pend := by
  have hself : (s.setEntry k e).entry k = e := update_self ..
  have hne : ∀ k' ≠ k, (s.setEntry k e).entry k' = s.entry k' := fun k' hk => update_of_ne hk ..
  refine ⟨h.known, ?_, fun k' => ?_, fun k' p => ?_, fun k' p => ?_, fun p sp hp ha hd hs => ?_,
    fun p hp => ?_, fun sp p n ha hr hx => ?_, fun k' p he => ?_, fun hf sp p n ha hr hx => ?_,
    fun hf k' p ha hx => ?_, fun k' p => ?_, fun k1 k2 p h1 h2 ha h0 heq => ?_, fun k' m => ?_⟩
  · refine (h.finite.insert k).subset fun k' hk' => ?_
    by_cases hk : k' = k
    · exact .inl hk
    · right
      show (s.entry k').bits.type ≠ .none
      rw [← hne k' hk]
      exact hk'
  · exact s.setEntry_cases k e hok (fun k' _ => h.ok k') k'
  · exact s.setEntry_cases k e (hobject p) (fun k' _ => h.object k' p) k'
  · refine s.setEntry_cases k e (hreceives.here p) (fun k' hk hr => ?_) k'
    exact ⟨hreceives.others k' hk p hr, (h.receives k' p hr).2⟩
  · show ((s.setEntry k e).entry (sp, (s.port p).receiverName)).receives p
    by_cases hk : (sp, (s.port p).receiverName) = k
    · subst hk
      rw [hself]
      exact hreceives.back hs p hp ha hd rfl
    · rw [hne _ hk]
      exact h.receiver p sp (hreceives.stray p sp hp hd hk) ha hd hs
  · obtain ⟨h1, -, ha, hd⟩ := h.naked p hp
    exact ⟨h1, hreceives.naked p hp, ha, hd⟩
  · by_cases hk : (sp, n) = k
    · subst hk
      rw [hself]
      exact ((hmapped hx ha).sound p hr).1
    · rw [hne _ hk]
      exact h.sound sp p n ha hr (hhole _ hk)
  · rcases hhole' with rfl | rfl
    · exact h.only k' p he
    · cases he
  · by_cases hk : (sp, n) = k
    · subst hk
      exact ((hmapped hx ha).sound p hr).2 hf
    · exact h.merged hf sp p n ha hr (hhole _ hk)
  · by_cases hk : k' = k
    · subst hk; rw [hself]; exact (hmapped hx ha).complete hf p
    · rw [hne k' hk]; exact h.complete hf k' p ha (hhole k' hk)
  · exact s.setEntry_cases k e (fun ho ha h0 => (hrequest p ho ha h0).1)
      (fun k' _ => h.request k' p) k'
  · by_cases hk1 : k1 = k <;> by_cases hk2 : k2 = k
    · rw [hk1, hk2]
    · subst hk1
      rw [hself] at h1 h0 heq
      rw [hne k2 hk2] at h2 heq
      exact absurd heq.symm ((hrequest p h1 ha h0).2 k2 hk2 h2)
    · subst hk2
      rw [hself] at h2 heq
      rw [hne k1 hk1] at h1 h0 heq
      exact absurd heq ((hrequest p h2 ha (heq ▸ h0)).2 k1 hk1 h1)
    · rw [hne k1 hk1] at h1 h0 heq
      rw [hne k2 hk2] at h2 heq
      exact h.apart k1 k2 p h1 h2 ha h0 heq
  · exact s.setEntry_cases k e (hpending m) (fun k' _ => h.pending k' m) k'

theorem Inv.keepReceive (he : ∀ p, e.receives p ↔ (s.entry k).receives p) :
    Receives stray stray s naked k e where
  here p hp := h.receives k p ((he p).mp hp)
  others k' _ p hp := (h.receives k' p hp).1
  back hs p hst ha hd hn := by
    have := h.receiver p k.1 hst ha hd hs
    rw [hn] at this
    exact (he p).mpr this
  stray p sp hst _ _ := hst
  naked p hp := (h.naked p hp).2.1

omit h in
theorem Inv.loseReceive (h : Inv full hole none s naked pend) (hk : (s.entry k).receives p)
    (he : e.bits.receive = false) :
    Receives none (some p) s naked k e := by
  obtain ⟨-, -, hdata, hname⟩ := h.receives k p hk
  refine ⟨fun q hq => absurd hq (not_receives he q), fun k' hk' q hq heq => ?_, fun hs q hst ha hd hn => ?_,
    fun q sp _ _ _ => nofun, fun q hq heq => ?_⟩
  · cases heq
    obtain ⟨-, -, hdata', hname'⟩ := h.receives k' p hq
    have hsp := PortData.receiver.inj (hdata'.symm.trans hdata)
    exact hk' (Prod.ext hsp (hname'.symm.trans hname))
  · have := h.receiver q k.1 nofun ha hd hs
    rw [hn] at this
    exact absurd (congrArg some (Entry.receives.unique this hk)) hst
  · cases heq
    obtain ⟨-, -, -, dest, hdest⟩ := h.naked p hq
    rw [hdata] at hdest
    cases hdest

omit h in
theorem Inv.gainReceive (h : Inv full hole (some p) s naked pend)
    (hk : (s.entry k).bits.receive = false) (he : e.receives p) (hactive : (s.port p).active)
    (hdata : (s.port p).data = .receiver k.1) (hname : (s.port p).receiverName = k.2) :
    Receives (some p) none s naked k e := by
  refine ⟨fun q hq => ?_, fun _ _ _ _ => nofun, fun hs q _ ha hd hn => ?_, fun q sp _ hd hq => ?_,
    fun _ _ => nofun⟩
  · obtain rfl := he.unique hq
    exact ⟨nofun, hactive, hdata, hname⟩
  · by_cases hq : q = p
    · exact hq ▸ he
    · have := (h.receiver q k.1 (fun heq => hq (some.inj heq).symm) ha hd hs).1
      rw [hn, hk] at this
      cases this
  · rintro ⟨⟩
    rw [hdata] at hd
    cases hd
    exact hq (Prod.ext rfl hname)

theorem Inv.keepMapped (hk : ¬ Excused hole k) (he : ∀ p, e.sendTo p ↔ (s.entry k).sendTo p) :
    (s.space k.1).isActive → Mapped full s k e := by
  intro hs
  exact ⟨fun p hr => ⟨(he p).mpr (h.sound k.1 p k.2 hs hr hk), fun hf => h.merged hf k.1 p k.2 hs hr hk⟩,
    fun hf p hp => h.complete hf k p hs hk ((he p).mp hp)⟩

omit h in
theorem Inv.unmapped (h : Inv full (some (k, p)) stray s naked pend)
    (hp : (s.space k.1).isReverseMap p = none) (he : e.bits.type ≠ .send) :
    (s.space k.1).isActive → Mapped full s k e := by
  refine fun hs => ⟨fun q hr => ?_, fun _ q hq => absurd hq.1 he⟩
  obtain rfl := h.only k p rfl hs q hr
  rw [hp] at hr
  cases hr

theorem Inv.keepRequests
    (he : e.request = 0 ∨ (e.object = (s.entry k).object ∧ e.request = (s.entry k).request)) :
    Requests s k e := by
  intro p ho ha h0
  obtain ⟨hobj, hreq⟩ := he.resolve_left h0
  rw [hobj] at ho
  rw [hreq] at h0 ⊢
  refine ⟨h.request k p ho ha h0, fun k' hk' ho' heq => ?_⟩
  exact hk' (h.apart k k' p ho ho' ha h0 heq.symm).symm

theorem Inv.setSame (hhole : ∀ k' ≠ k, ¬ Excused hole k') (hok : e.Ok)
    (hobject : e.object = (s.entry k).object) (htype : e.bits.type = (s.entry k).bits.type)
    (hreceive : e.bits.receive = (s.entry k).bits.receive)
    (hrequest : e.request = 0 ∨ e.request = (s.entry k).request) :
    Inv full hole stray (s.setEntry k e) naked pend := by
  refine h.setEntry hhole (.inl rfl) hok (fun p ho => h.object k p (hobject ▸ ho))
    (h.keepReceive fun p => ?_) (fun hx => h.keepMapped hx fun p => ?_)
    (h.keepRequests (hrequest.imp_right fun hr => ⟨hobject, hr⟩)) fun m hm => ?_
  · simp only [Entry.receives, hobject, hreceive]
  · simp only [Entry.sendTo, hobject, htype]
  · obtain ⟨h1, h2⟩ := h.pending k m hm
    exact ⟨htype ▸ h1, htype ▸ hobject ▸ h2⟩

/-! ## Dead-name requests -/

theorem Inv.dncancel (hhole : ∀ k' ≠ k, ¬ Excused hole k')
    (hk : (s.entry k).object = some (.port p)) :
    Inv full hole stray (ipcRightDncancel s p k).1 naked pend ∧
      (ipcRightDncancel s p k).1.entry k = { s.entry k with request := 0 } := by
  unfold ipcRightDncancel
  split
  next h0 =>
    refine ⟨h, ?_⟩
    rw [← h0]
  next h0 =>
    have hok : ({ s.entry k with request := 0 } : Entry).Ok := by
      have := h.ok k
      generalize s.entry k = e at this
      cases this <;> constructor
    have hS := h.setSame hhole hok rfl rfl rfl (.inl rfl)
    refine ⟨?_, update_self ..⟩
    obtain ⟨t, ht⟩ := ipcPortDncancel_eq (s.port p) (s.entry k).request
    -- the entry gives up its request before the slot is freed
    refine hS.setTable p _ (by rw [ht]; rfl) (by rw [ht]; rfl) (by rw [ht]; rfl)
      fun k' ho ha hr => ?_
    by_cases hk' : k' = k
    · subst hk'
      rw [setEntry_self] at hr
      exact absurd rfl hr
    · have hsame : (s.setEntry k { s.entry k with request := 0 }).entry k' = s.entry k' :=
        update_of_ne hk' ..
      rw [hsame] at ho hr ⊢
      refine (h.request k' p ho ha hr).dncancel h0 hr fun heq => hk' ?_
      exact h.apart k' k p ho hk ha hr heq

end

/-! ## Receive rights -/

theorem nakedReceives_of_ne (h : q ≠ p) (n : Nat) :
    nakedReceives (update naked p n) s q = nakedReceives naked s q := by
  rw [nakedReceives, update_of_ne h, nakedReceives]

theorem some_ne (h : q ≠ p) : some p ≠ some q := fun heq => h (some.inj heq).symm

theorem Inv.strayAt (h : Inv full hole none s naked pend)
    (hdata : ∀ sp, (s.port p).data ≠ .receiver sp) (hnoted : s.noted.count (.receive p) = 0) :
    Inv full hole (some p) s (update naked p 0) pend := by
  refine { h with
    receives := fun k q hr => ?_
    receiver := fun q sp _ => h.receiver q sp nofun
    naked := fun q hq => ?_ }
  · obtain ⟨-, ha, hd, hn⟩ := h.receives k q hr
    exact ⟨fun heq => hdata k.1 (some.inj heq ▸ hd), ha, hd, hn⟩
  by_cases hqp : q = p
  · subst hqp
    rw [nakedReceives, update_self, hnoted] at hq
    exact absurd rfl hq
  · rw [nakedReceives_of_ne hqp] at hq ⊢
    obtain ⟨h1, -, hrest⟩ := h.naked q hq
    exact ⟨h1, some_ne hqp, hrest⟩

theorem Inv.grab (h : Inv full hole none s naked pend) (hp : naked p ≠ 0) :
    (s.port p).active ∧ naked p = 1 ∧ Inv full hole (some p) s (update naked p 0) pend := by
  have hp' : nakedReceives naked s p ≠ 0 := by
    rw [nakedReceives]
    omega
  obtain ⟨h1, -, ha, dest, hd⟩ := h.naked p hp'
  rw [nakedReceives] at h1
  refine ⟨ha, by omega, h.strayAt (fun sp heq => ?_) (by omega)⟩
  rw [hd] at heq
  cases heq

section

variable (h : Inv full hole (some p) s naked pend)
include h

theorem Inv.naked_stray : naked p = 0 ∧ s.noted.count (.receive p) = 0 := by
  have hzero : nakedReceives naked s p = 0 := by
    by_contra hp
    exact (h.naked p hp).2.1 rfl
  exact Nat.add_eq_zero_iff.mp hzero

theorem Inv.setStray (hactive : x.active = (s.port p).active)
    (hdn : x.dnrequests = (s.port p).dnrequests)
    (hdata : full → ∀ sp n, x.data = .receiver sp → (s.space sp).isActive →
      (s.space sp).isReverseMap p = some n → Excused hole (sp, n)) :
    Inv full hole (some p) (s.setPort p x) naked pend := by
  have hne : ∀ q ≠ p, (s.setPort p x).port q = s.port q := fun q hq => s.setPort_of_ne p q x hq
  have hact : ∀ q, ((s.setPort p x).port q).active = (s.port q).active :=
    s.setPort_cases p x hactive fun _ _ => rfl
  refine { h with
    known := fun q ha => h.known q (hact q ▸ ha)
    receives := fun k q hr => ?_
    receiver := fun q sp hq ha hd hs => ?_
    naked := fun q hq => ?_
    merged := fun hf sp q n ha hr hn hq => ?_
    request := fun k q ho ha h0 => ?_
    apart := fun k k' q h1 h2 ha => h.apart k k' q h1 h2 (hact q ▸ ha) }
  · obtain ⟨hq, hrest⟩ := h.receives k q hr
    rw [hne q (fun heq => hq (heq ▸ rfl))]
    exact ⟨hq, hrest⟩
  · have hqp : q ≠ p := fun heq => hq (heq ▸ rfl)
    rw [hne q hqp] at ha hd ⊢
    exact h.receiver q sp hq ha hd hs
  · obtain ⟨h1, hst, hrest⟩ := h.naked q hq
    rw [hne q (fun heq => hst (heq ▸ rfl))]
    exact ⟨h1, hst, hrest⟩
  · by_cases hqp : q = p
    · subst hqp
      rw [setPort_self]
      exact fun hd => hn (hdata hf sp n hd ha hr)
    · rw [hne q hqp] at hq ⊢
      exact h.merged hf sp q n ha hr hn hq
  · rw [hact] at ha
    obtain ⟨t, n, r, ht, hslot⟩ := h.request k q ho ha h0
    refine ⟨t, n, r, ?_, hslot⟩
    by_cases hq : q = p
    · subst hq; rw [setPort_self, hdn, ht]
    · rw [hne q hq, ht]

theorem Inv.strip {dest : Option PortId} (hactive : (s.port p).active)
    (hdata : (s.port p).data = .destination dest) :
    Inv full hole none s (update naked p 1) pend := by
  refine { h with
    receives := fun k q hr => ⟨nofun, (h.receives k q hr).2⟩
    receiver := fun q sp _ ha hd hs => h.receiver q sp (fun heq => ?_) ha hd hs
    naked := fun q hq => ?_ }
  · cases heq
    rw [hdata] at hd
    cases hd
  · by_cases hqp : q = p
    · subst hqp
      refine ⟨?_, nofun, hactive, dest, hdata⟩
      rw [nakedReceives, update_self, h.naked_stray.2]
    · rw [nakedReceives_of_ne hqp] at hq ⊢
      obtain ⟨h1, -, hrest⟩ := h.naked q hq
      exact ⟨h1, nofun, hrest⟩

theorem Inv.limbo (hactive : (s.port p).active) :
    Inv full hole none (s.limbo p) (update naked p 1) pend := by
  have hset := h.setStray (x := { s.port p with receiverName := 0, data := .destination none })
    rfl rfl fun _ _ _ => nofun
  exact hset.strip (by rwa [setPort_self]) (by rw [setPort_self])

omit h in
theorem Inv.transit (h : Inv full hole none s naked pend) (hp : naked p ≠ 0) (q : PortId) :
    Inv full hole none (s.transit p q) naked pend := by
  obtain ⟨hactive, h1, hgrab⟩ := h.grab hp
  have href := hgrab.reference q
  have hactive' : ((s.reference q).port p).active := by
    by_cases hq : p = q
    · subst hq
      rwa [State.reference, setPort_self]
    · rwa [State.reference, s.setPort_of_ne q p _ hq]
  have hset := href.setStray
    (x := { (s.reference q).port p with data := .destination (some q) }) rfl rfl fun _ _ _ => nofun
  have hstrip := hset.strip (by rwa [setPort_self]) (by rw [setPort_self])
  rwa [update_idem, ← h1, update_eq_self] at hstrip

theorem Inv.dies (hx : x.active = false) : Inv full hole none (s.setPort p x) naked pend := by
  have hne : ∀ q ≠ p, (s.setPort p x).port q = s.port q := fun q hq => s.setPort_of_ne p q x hq
  have hlive : ∀ q, ((s.setPort p x).port q).active → q ≠ p ∧ (s.port q).active :=
    s.setPort_cases p x (fun ha => absurd ha (by simp [hx])) fun _ hq ha => ⟨hq, ha⟩
  refine { h with
    known := fun q ha => h.known q (hlive q ha).2
    receives := fun k q hr => ?_
    receiver := fun q sp _ ha hd hs => ?_
    naked := fun q hq => ?_
    merged := fun hf sp q n ha hr hn hq => ?_
    request := fun k q ho ha h0 => ?_
    apart := fun k k' q h1 h2 ha => h.apart k k' q h1 h2 (hlive q ha).2 }
  · obtain ⟨hq, hrest⟩ := h.receives k q hr
    rw [hne q (fun heq => hq (heq ▸ rfl))]
    exact ⟨nofun, hrest⟩
  · obtain ⟨hq, ha⟩ := hlive q ha
    rw [hne q hq] at hd ⊢
    exact h.receiver q sp (some_ne hq) ha hd hs
  · obtain ⟨h1, hst, hrest⟩ := h.naked q hq
    rw [hne q (fun heq => hst (heq ▸ rfl))]
    exact ⟨h1, nofun, hrest⟩
  · obtain ⟨hqp, hq⟩ := hlive q hq
    rw [hne q hqp]
    exact h.merged hf sp q n ha hr hn hq
  · obtain ⟨hq, ha⟩ := hlive q ha
    rw [hne q hq]
    exact h.request k q ho ha h0

theorem Inv.die : Inv full hole none (s.die p) naked pend := by
  have hdies : Inv full hole none { s.setPort p { s.port p with
      active := false, data := .timestamp s.timestamp } with timestamp := s.timestamp + 1 }
      naked pend := (h.dies rfl).congr (fun _ => rfl) rfl
  refine ((hdies.notifyIf fun n hn => ?_).notifyDead _).release p
  obtain ⟨q, -, rfl⟩ := map_eq_some_iff.mp hn
  exact plain_sendOnce q

theorem Inv.destroy (hactive : (s.port p).active) (circular : Bool) :
    Inv full hole none (ipcPortDestroy s p circular) naked pend := by
  unfold ipcPortDestroy
  split
  · exact h.die
  next q hq =>
    have hzero := h.naked_stray.1
    have hlimbo := (h.setPort p { s.port p with pdrequest := none } rfl).limbo (by rwa [setPort_self])
    split
    next hc =>
      have hgrab := ((hlimbo.releaseSonce q).grab (p := p) (by simp)).2.2
      rw [update_idem, ← hzero, update_eq_self] at hgrab
      exact hgrab.die
    next hc =>
      have htransit := hlimbo.transit (p := p) (by simp) q
      rw [show (1 : Nat) = naked p + 1 by rw [hzero]] at htransit
      exact htransit.notifyDestroyed

end

end

end Mach.Ipc.Rights
