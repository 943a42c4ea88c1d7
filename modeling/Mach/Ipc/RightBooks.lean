import Mathlib.Data.BitVec
import Mathlib.Data.Set.Card
import Mathlib.Tactic.Abel
import Mathlib.Tactic.Ring
import Mach.Ipc.RightStep

/-!
# The counters of a port

Where send and send-once rights are: in entries, in notifications that are not sent yet,
registered with live ports as requests, and with whoever else holds naked ones. The
counters of a live port follow: what a function on rights does to the counters is what it
does to these places.

A function changes the counter and the places one after the other. `Books` keeps the
difference, `owed`: the naked rights that somebody holds, and in the middle of a function
also what is still to be put somewhere. The counters have 32 bits, so differences are
taken modulo `2 ^ 32`, and nothing has to be said about which change comes first.
-/

namespace Mach.Ipc.Rights

open List Option Multiset Finset State Port

def tally (m : Multiset Right) (r : Right) : Count := (m.count r : Count)

section

variable (m m' : Multiset Right) (r : Right)

@[simp] theorem tally_zero : tally 0 = 0 := by
  funext r
  simp [tally]

@[simp] theorem tally_add : tally (m + m') = tally m + tally m' := by
  funext r
  simp [tally]

theorem tally_sub {m m' : Multiset Right} (h : m' ≤ m) : tally (m - m') = tally m - tally m' := by
  obtain ⟨d, rfl⟩ := Multiset.le_iff_exists_add.mp h
  rw [add_tsub_cancel_left, tally_add, add_sub_cancel_left]

end

/-! ## Where rights are -/

def Right.port : Right → PortId
  | .send p | .sendOnce p | .receive p => p

def Entry.rights (e : Entry) : Multiset Right :=
  match e.object with
  | some (.port p) =>
    (if e.bits.send then {.send p} else 0) + (if e.bits.sendOnce then {.sendOnce p} else 0)
  | _ => 0

def DnSlot.rights : DnSlot → Multiset Right
  | .free _ => 0
  | .used _ q => {.sendOnce q}

def Port.registered (x : Port) : Multiset Right :=
  if x.active then
    sonces x.nsrequest + sonces x.pdrequest + ((x.dnrequests.elim [] DnTable.slots).map DnSlot.rights).sum
  else 0

def State.registered (s : State) : Multiset Right := ∑ p ∈ s.ports, (s.port p).registered

def Port.counter (x : Port) : Right → Count
  | .send _ => x.srights
  | .sendOnce _ => x.sorights
  | .receive _ => 0

def State.counts (s : State) (r : Right) : Prop := (s.port r.port).active ∧ r ≠ .receive r.port

def State.entriesWith (s : State) (r : Right) : Set Key := {k | r ∈ (s.entry k).rights}

structure Books (P : Finset PortId) (s : State) (owed : Right → Count) : Prop where
  ports : s.ports = P
  finite : ∀ r, (s.entriesWith r).Finite
  noted : ∀ r ∈ s.noted, r.port ∈ P
  registered : ∀ p, ∀ r ∈ (s.port p).registered, r.port ∈ P
  balance : ∀ r, s.counts r → (s.port r.port).counter r =
    ((s.entriesWith r).ncard : Count) + tally s.noted r + tally s.registered r + owed r

def Known (P : Finset PortId) (m : Multiset Right) : Prop := ∀ r ∈ m, r.port ∈ P

/-- The rights `m` are owed as well. -/
def Owes (P : Finset PortId) (s : State) (owed : Right → Count) (m : Multiset Right) : Prop :=
  Books P s (owed + tally m) ∧ Known P m

section

variable {P : Finset PortId} {s : State} {owed owed' : Right → Count} {k : Key} {p q : PortId}
  {e : Entry} {m m' : Multiset Right}

theorem known_add : Known P (m + m') ↔ Known P m ∧ Known P m' := by
  simp only [Known, mem_add, or_imp, forall_and]

theorem known_singleton {r : Right} (h : r.port ∈ P) : Known P {r} :=
  fun _ hr => Multiset.mem_singleton.mp hr ▸ h

section

variable (h : Books P s owed)
include h

theorem Books.owes : Owes P s owed 0 := ⟨by rwa [tally_zero, add_zero], nofun⟩

theorem Books.known (hm : (s.port p).registered = m + m') : Known P m ∧ Known P m' :=
  known_add.mp (hm ▸ h.registered p)

theorem Books.congr (howed : ∀ r, s.counts r → owed' r = owed r) : Books P s owed' :=
  ⟨h.ports, h.finite, h.noted, h.registered, fun r hr => by rw [howed r hr]; exact h.balance r hr⟩

theorem Books.of_eq {s' : State} (hs : (s'.entry, s'.port, s'.ports, s'.notifications) =
      (s.entry, s.port, s.ports, s.notifications)) : Books P s' owed := by
  simp only [Prod.mk.injEq] at hs
  obtain ⟨hentry, hport, hports, hnotes⟩ := hs
  obtain ⟨h0, h1, h2, h3, h4⟩ := h
  constructor <;> simpa only [State.entriesWith, State.noted, State.registered, State.counts,
    hports, hport, hentry, hnotes]

theorem Books.notify {n : Notification} (hn : Known P n.rights) :
    Books P (s.notify n) (owed - tally n.rights) where
  ports := h.ports
  finite := h.finite
  noted := by
    exact known_add.mpr ⟨hn, h.noted⟩
  registered := h.registered
  balance r hr := by
    have hbalance := h.balance r hr
    rw [noted_notify, tally_add]
    show (s.port r.port).counter r = _
    rw [hbalance]
    show _ = ((s.entriesWith r).ncard : Count) + (tally n.rights r + tally s.noted r) +
      tally s.registered r + (owed r - tally n.rights r)
    ring

end

theorem Entry.rights_nodup (e : Entry) : e.rights.Nodup := by
  unfold Entry.rights
  split
  · split <;> split <;> simp
  · exact nodup_zero

theorem Entry.tally_rights (e : Entry) (r : Right) :
    tally e.rights r = if r ∈ e.rights then 1 else 0 := by
  unfold tally
  split
  next hr => rw [count_eq_one_of_mem e.rights_nodup hr]; rfl
  next hr => rw [count_eq_zero_of_notMem hr]; rfl

theorem entriesWith_setEntry (s : State) (k : Key) (e : Entry) (r : Right) :
    (s.setEntry k e).entriesWith r =
      if r ∈ e.rights then insert k (s.entriesWith r) else s.entriesWith r \ {k} := by
  ext k'
  by_cases hk : k' = k
  · subst hk
    by_cases hr : r ∈ e.rights <;> simp [State.entriesWith, hr]
  · have hsame : (s.setEntry k e).entry k' = s.entry k' := Function.update_of_ne hk ..
    by_cases hr : r ∈ e.rights <;> simp [State.entriesWith, hr, hsame, hk]

theorem Books.setEntry (h : Books P s owed) (k : Key) (e : Entry) :
    Books P (s.setEntry k e) (owed + tally (s.entry k).rights - tally e.rights) where
  ports := h.ports
  finite r := by
    rw [entriesWith_setEntry]
    split
    · exact (h.finite r).insert k
    · exact (h.finite r).sdiff
  noted := h.noted
  registered := h.registered
  balance r hr := by
    have hcard : (((s.setEntry k e).entriesWith r).ncard : Count) =
        ((s.entriesWith r).ncard : Count) + tally e.rights r - tally (s.entry k).rights r := by
      rw [entriesWith_setEntry, e.tally_rights, (s.entry k).tally_rights]
      have hmem : k ∈ s.entriesWith r ↔ r ∈ (s.entry k).rights := Iff.rfl
      by_cases hold : r ∈ (s.entry k).rights
      · have hk := hmem.mpr hold
        by_cases hnew : r ∈ e.rights
        · rw [if_pos hnew, if_pos hnew, if_pos hold, Set.insert_eq_of_mem hk]
          ring
        · rw [if_neg hnew, if_neg hnew, if_pos hold, ← Set.ncard_sdiff_singleton_add_one hk (h.finite r), Nat.cast_add]
          ring
      · have hk := mt hmem.mp hold
        by_cases hnew : r ∈ e.rights
        · rw [if_pos hnew, if_pos hnew, if_neg hold, Set.ncard_insert_of_notMem hk (h.finite r), Nat.cast_add]
          ring
        · rw [if_neg hnew, if_neg hnew, if_neg hold, Set.sdiff_singleton_eq_self hk]
          ring
    have hbalance := h.balance r hr
    show (s.port r.port).counter r = _ + tally s.noted r + tally s.registered r +
      (owed r + tally (s.entry k).rights r - tally e.rights r)
    rw [hbalance, hcard]
    ring

theorem tally_registered_setPort (s : State) (p : PortId) (x : Port)
    (hp : p ∈ s.ports ∨ x.registered = (s.port p).registered) :
    tally (s.setPort p x).registered =
      tally s.registered - tally (s.port p).registered + tally x.registered := by
  have hne : ∀ q ≠ p, (s.setPort p x).port q = s.port q := fun q hq => s.setPort_of_ne p q x hq
  by_cases hmem : p ∈ s.ports
  · have hold := add_sum_erase s.ports (fun q => (s.port q).registered) hmem
    have hnew := add_sum_erase s.ports (fun q => ((s.setPort p x).port q).registered) hmem
    have hrest : ∑ q ∈ s.ports.erase p, ((s.setPort p x).port q).registered =
        ∑ q ∈ s.ports.erase p, (s.port q).registered := by
      refine sum_congr rfl fun q hq => ?_
      rw [hne q (ne_of_mem_erase hq)]
    rw [hrest, setPort_self] at hnew
    have hold' : tally s.registered = tally (s.port p).registered +
        tally (∑ q ∈ s.ports.erase p, (s.port q).registered) := by
      rw [← tally_add, hold, State.registered]
    have hnew' : tally (s.setPort p x).registered = tally x.registered +
        tally (∑ q ∈ s.ports.erase p, (s.port q).registered) := by
      rw [← tally_add, hnew]
      rfl
    rw [hold', hnew']
    abel
  · have hsame : (s.setPort p x).registered = s.registered := by
      refine sum_congr rfl fun q hq => ?_
      rw [hne q fun heq => hmem (heq ▸ hq)]
    rw [hsame, hp.resolve_left hmem]
    abel

variable {x : Port}

theorem tally_singleton (r r' : Right) : tally {r} r' = if r' = r then 1 else 0 := by
  unfold tally
  rw [Multiset.count_singleton]
  split <;> rfl

theorem tally_singleton_ne {r r' : Right} (h : r'.port ≠ r.port) : tally {r} r' = 0 := by
  rw [tally_singleton]
  exact if_neg fun heq => h (congrArg Right.port heq)

theorem registered_of_active (h : x.active) : x.registered =
    sonces x.nsrequest + sonces x.pdrequest +
      ((x.dnrequests.elim [] DnTable.slots).map DnSlot.rights).sum := if_pos h

theorem sum_set {M : Type} [AddCommMonoid M] :
    ∀ (l : List M) (i : Nat) (x y : M), l[i]? = some x → (l.set i y).sum + x = l.sum + y
  | [], i, x, y, h => by simp at h
  | a :: l, 0, x, y, h => by
    obtain rfl : a = x := by simpa using h
    simp only [set_cons_zero, List.sum_cons]
    abel
  | a :: l, i + 1, x, y, h => by
    have ih := sum_set l i x y (by simpa using h)
    simp only [set_cons_succ, List.sum_cons, add_assoc, ih]

theorem sum_set_slots {l : List DnSlot} {i : Nat} {x : DnSlot} (y : DnSlot) (h : l[i]? = some x) :
    ((l.set i y).map DnSlot.rights).sum + x.rights = (l.map DnSlot.rights).sum + y.rights := by
  rw [map_set]
  exact sum_set _ i _ _ (by rw [List.getElem?_map, h]; rfl)

theorem Books.notifyDead (slots : List DnSlot) :
    ∀ {s : State} {owed : Right → Count}, Books P s owed → Known P (slots.map DnSlot.rights).sum →
      Books P (s.notifyDead slots) (owed - tally (slots.map DnSlot.rights).sum) := by
  induction slots with
  | nil =>
    intro s owed h _
    show Books P s (owed - tally 0)
    rwa [tally_zero, sub_zero]
  | cons slot slots ih =>
    intro s owed h hslots
    rw [List.map_cons, List.sum_cons] at hslots ⊢
    obtain ⟨hslot, hrest⟩ := known_add.mp hslots
    rw [tally_add, ← sub_sub]
    cases slot with
    | free next =>
      have hih := ih h hrest
      show Books P (s.notifyDead slots) (owed - tally 0 - _)
      rwa [tally_zero, sub_zero]
    | used name q => exact ih (h.notify hslot) hrest

section

variable (h : Books P s owed)
include h

section

variable (hactive : x.active = (s.port p).active)
include hactive

theorem Books.setPort
    (hp : p ∈ P ∨ x.registered = (s.port p).registered) (hknown : Known P x.registered)
    (howed : ∀ r, s.counts r → owed' r = owed r +
      (if r.port = p then x.counter r - (s.port p).counter r else 0) +
      tally (s.port p).registered r - tally x.registered r) : Books P (s.setPort p x) owed' where
  ports := h.ports
  finite := h.finite
  noted := h.noted
  registered q := by
    by_cases hq : q = p
    · subst hq
      rw [setPort_self]
      exact hknown
    · rw [s.setPort_of_ne p q x hq]
      exact h.registered q
  balance r hr := by
    have hr' : s.counts r := by
      refine ⟨?_, hr.2⟩
      have := hr.1
      by_cases hq : r.port = p
      · rwa [hq, setPort_self, hactive, ← hq] at this
      · rwa [s.setPort_of_ne p _ x hq] at this
    rw [tally_registered_setPort s p x (by rwa [h.ports])]
    show ((s.setPort p x).port r.port).counter r = ((s.entriesWith r).ncard : Count) + tally s.noted r +
      (tally s.registered r - tally (s.port p).registered r + tally x.registered r) + owed' r
    rw [howed r hr']
    have hbalance := h.balance r hr'
    by_cases hq : r.port = p
    · rw [if_pos hq, hq, setPort_self, ← hq, hbalance]
      ring
    · rw [if_neg hq, s.setPort_of_ne p _ x hq, hbalance]
      ring

/-! ## Counters -/

theorem Books.setCounters (hreg : x.registered = (s.port p).registered)
    (hcounter : ∀ r, owed' r = owed r + if r.port = p then x.counter r - (s.port p).counter r else 0) :
    Books P (s.setPort p x) owed' := by
  refine h.setPort hactive (.inr hreg) (hreg ▸ h.registered p) fun r _ => ?_
  rw [hreg, add_sub_cancel_right, hcounter]

theorem Books.setOther
    (hreg : x.registered = (s.port p).registered) (hcounter : x.counter = (s.port p).counter) :
    Books P (s.setPort p x) owed := by
  refine h.setCounters hactive hreg fun r => ?_
  rw [hcounter, sub_self, ite_self, add_zero]

end

theorem Books.release (p : PortId) : Books P (s.release p) owed := h.setOther rfl rfl rfl

theorem Books.reference (p : PortId) : Books P (s.reference p) owed := h.setOther rfl rfl rfl

theorem Books.copySright (p : PortId) : Books P (s.copySright p) (owed + tally {.send p}) := by
  refine h.setCounters rfl rfl fun r => ?_
  cases r <;> simp [tally_singleton, counter, Right.port]

theorem Books.makeSend (p : PortId) : Books P (ipcPortMakeSend s p) (owed + tally {.send p}) := by
  refine h.setCounters rfl rfl fun r => ?_
  cases r <;> simp [tally_singleton, counter, Right.port]

theorem Books.makeSonce (p : PortId) :
    Books P (ipcPortMakeSonce s p) (owed + tally {.sendOnce p}) := by
  refine h.setCounters rfl rfl fun r => ?_
  cases r <;> simp [tally_singleton, counter, Right.port]

theorem Books.releaseSonce (p : PortId) :
    Books P (ipcPortReleaseSonce s p) (owed - tally {.sendOnce p}) := by
  refine h.setCounters rfl rfl fun r => ?_
  cases r <;> simp [tally_singleton, counter, Right.port, sub_eq_add_neg]
  split <;> rfl

theorem Books.lessSend (hactive : x.active = (s.port p).active)
    (hreg : x.registered = (s.port p).registered) (hsend : x.srights = (s.port p).srights - 1)
    (hsonce : x.sorights = (s.port p).sorights) :
    Books P (s.setPort p x) (owed - tally {.send p}) := by
  refine h.setCounters hactive hreg fun r => ?_
  cases r <;> simp [tally_singleton, counter, Right.port, sub_eq_add_neg, hsend, hsonce]
  split <;> rfl

theorem Books.dropCopy (p : PortId) : Books P (s.setPort p { s.port p with
      srights := (s.port p).srights - 1, references := (s.port p).references - 1 })
      (owed - tally {.send p}) :=
  h.lessSend rfl rfl rfl rfl

/-! ## Requests -/

def noteRights (n : Option Notification) : Multiset Right := n.elim 0 Notification.rights

theorem Books.notifyIf {n : Option Notification} (hn : Known P (noteRights n)) :
    Books P (s.notifyIf n) (owed - tally (noteRights n)) := by
  cases n with
  | none =>
    show Books P s (owed - tally 0)
    rwa [tally_zero, sub_zero]
  | some n => exact h.notify hn

theorem Books.notifySonces (f : PortId → Notification) {q : Option PortId} (hq : Known P (sonces q))
    (hf : ∀ q, (f q).rights = {.sendOnce q}) :
    Books P (s.notifyIf (q.map f)) (owed - tally (sonces q)) := by
  have hrights : noteRights (q.map f) = sonces q := by
    cases q with
    | none => rfl
    | some q => exact hf q
  rw [← hrights] at hq ⊢
  exact h.notifyIf hq

omit h in
theorem Owes.notifyIf {n : Option Notification} (h : Owes P s owed (noteRights n)) :
    Books P (s.notifyIf n) owed := by
  have hnote := h.1.notifyIf h.2
  rwa [add_sub_cancel_right] at hnote

theorem Books.setRequests (hp : p ∈ P) (hactive : x.active = (s.port p).active)
    (hsend : x.srights = (s.port p).srights) (hsonce : x.sorights = (s.port p).sorights)
    (hknown : Known P x.registered) :
    Books P (s.setPort p x) (owed + tally (s.port p).registered - tally x.registered) := by
  refine h.setPort hactive (.inl hp) hknown fun r _ => ?_
  have hcounter : x.counter r - (s.port p).counter r = 0 := by
    cases r <;> simp [counter, hsend, hsonce]
  rw [hcounter, ite_self, add_zero]
  rfl

theorem Books.dropSright (hp : p ∈ P) (ha : (s.port p).active) :
    Owes P (s.dropSright p).1 (owed - tally {.send p}) (noteRights (s.dropSright p).2) := by
  have hcounter : Books P (s.setPort p { s.port p with srights := (s.port p).srights - 1 })
      (owed - tally {.send p}) := h.lessSend rfl rfl rfl rfl
  simp only [State.dropSright]
  split
  · split
    next q hq =>
      obtain ⟨x, hx⟩ : ∃ x : Port, x = { s.port p with
        srights := (s.port p).srights - 1, nsrequest := none } := ⟨_, rfl⟩
      have hreg : (s.port p).registered = {.sendOnce q} + x.registered := by
        rw [registered_of_active ha, registered_of_active (by rw [hx]; exact ha), hx,
          show (s.port p).nsrequest = some q from hq]
        simp only [sonces, map_some, elim_some, map_none, elim_none]
        rw [zero_add, add_assoc]
      obtain ⟨hq', hknown⟩ := h.known hreg
      have hset := hcounter.setRequests hp (by rw [setPort_self, hx])
        (by rw [setPort_self, hx]) (by rw [setPort_self, hx]) hknown
      have hold : ((s.setPort p { s.port p with srights := (s.port p).srights - 1 }).port p).registered =
          {.sendOnce q} + x.registered := by
        rw [setPort_self]
        exact hreg
      rw [hold, tally_add, ← add_assoc, add_sub_cancel_right] at hset
      refine ⟨?_, hq'⟩
      rw [← hx]
      show Books P (s.setPort p x) (owed - tally {.send p} + tally {.sendOnce q})
      simpa [State.setPort] using hset
    · exact hcounter.owes
  · exact hcounter.owes

theorem Books.setSame (he : e.rights = (s.entry k).rights) : Books P (s.setEntry k e) owed := by
  have hset := h.setEntry k e
  rwa [he, add_sub_cancel_right] at hset

def Port.dnRights (x : Port) : Multiset Right :=
  ((x.dnrequests.elim [] DnTable.slots).map DnSlot.rights).sum

omit h in
theorem ipcPortDncancel_dnRights (x : Port) (i : Nat) :
    x.dnRights = (ipcPortDncancel x i).1.dnRights + sonces (ipcPortDncancel x i).2 := by
  unfold ipcPortDncancel
  split
  · exact (add_zero _).symm
  next t ht =>
    split
    next name q hslot =>
      have hslots := sum_set_slots (.free t.next) hslot
      rw [dnRights, ht]
      exact (add_zero _).symm.trans hslots.symm
    · exact (add_zero _).symm

omit h in
theorem registered_table (ha : x.active) (t : Option DnTable) :
    x.registered + ({ x with dnrequests := t } : Port).dnRights =
      ({ x with dnrequests := t } : Port).registered + x.dnRights := by
  rw [registered_of_active ha, registered_of_active (x := { x with dnrequests := t }) ha]
  simp only [dnRights]
  abel

omit h in
theorem ipcPortDncancel_registered (ha : x.active) (i : Nat) :
    x.registered = (ipcPortDncancel x i).1.registered + sonces (ipcPortDncancel x i).2 := by
  obtain ⟨t, ht⟩ := ipcPortDncancel_eq x i
  have htable := registered_table ha t
  rw [← ht, ipcPortDncancel_dnRights x i] at htable
  refine add_right_cancel (b := (ipcPortDncancel x i).1.dnRights) ?_
  rw [htable]
  abel

theorem Books.dncancel (hp : p ∈ P) (ha : (s.port p).active) (k : Key) :
    Owes P (ipcRightDncancel s p k).1 owed (sonces (ipcRightDncancel s p k).2) := by
  unfold ipcRightDncancel
  split
  · exact h.owes
  · obtain ⟨t, ht⟩ := ipcPortDncancel_eq (s.port p) (s.entry k).request
    have hreg := ipcPortDncancel_registered ha (s.entry k).request
    have hset := h.setRequests hp (by rw [ht]) (by rw [ht]) (by rw [ht]) (h.known hreg).1
    rw [hreg, tally_add, add_sub_assoc, add_sub_cancel_left] at hset
    exact ⟨hset.setSame rfl, (h.known hreg).2⟩

/-! ## Ports that die -/

theorem Books.kill (hp : p ∈ P) (hx : x.active = false) :
    Books P (s.setPort p x) (owed + tally (s.port p).registered) where
  ports := h.ports
  finite := h.finite
  noted := h.noted
  registered q r hr := by
    by_cases hq : q = p
    · subst hq
      rw [setPort_self, Port.registered, if_neg (by rw [hx]; exact nofun)] at hr
      cases hr
    · rw [s.setPort_of_ne p q x hq] at hr
      exact h.registered q r hr
  balance r hr := by
    have hne : r.port ≠ p := by
      intro heq
      have := hr.1
      rw [heq, setPort_self, hx] at this
      cases this
    have hport : (s.setPort p x).port r.port = s.port r.port := s.setPort_of_ne p _ x hne
    have hbalance := h.balance r ⟨hport ▸ hr.1, hr.2⟩
    have hzero : x.registered = 0 := if_neg (by rw [hx]; exact nofun)
    rw [tally_registered_setPort s p x (.inl (h.ports ▸ hp)), hport, hbalance, hzero, tally_zero, add_zero]
    show _ = ((s.entriesWith r).ncard : Count) + tally s.noted r +
      (tally s.registered r - tally (s.port p).registered r) + (owed r + tally (s.port p).registered r)
    ring

theorem Books.die (hp : p ∈ P) (ha : (s.port p).active) (hpd : (s.port p).pdrequest = none) :
    Books P (s.die p) owed := by
  have hreg : (s.port p).registered = sonces (s.port p).nsrequest + (s.port p).dnRights := by
    rw [registered_of_active ha, hpd, show sonces none = 0 from rfl, add_zero]
    rfl
  obtain ⟨hns, hdn⟩ := h.known hreg
  have hkill : Books P { s.setPort p { s.port p with
      active := false, data := .timestamp s.timestamp } with timestamp := s.timestamp + 1 }
      (owed + tally (s.port p).registered) := (h.kill hp rfl).of_eq rfl
  rw [hreg, tally_add] at hkill
  have hdead := Books.notifyDead ((s.port p).dnrequests.elim [] DnTable.slots)
    (hkill.notifySonces .sendOnce hns fun _ => rfl) hdn
  have howed : owed + (tally (sonces (s.port p).nsrequest) + tally (s.port p).dnRights) -
      tally (sonces (s.port p).nsrequest) -
      tally (((s.port p).dnrequests.elim [] DnTable.slots).map DnSlot.rights).sum = owed := by
    rw [dnRights]
    abel
  rw [howed] at hdead
  exact hdead.release p

theorem Books.limbo (p : PortId) : Books P (s.limbo p) owed := h.setOther rfl rfl rfl

theorem Books.transit (p dest : PortId) : Books P (s.transit p dest) owed :=
  (h.reference dest).setOther rfl rfl rfl

theorem Books.clearReceiver (p : PortId) : Books P (ipcPortClearReceiver s p) owed := by
  unfold ipcPortClearReceiver
  simp only
  split
  next i _ =>
    have hset : Books P (s.setPset i { s.pset i with references := (s.pset i).references - 1 }) owed :=
      h.of_eq rfl
    exact hset.setOther rfl rfl rfl
  · exact h.setOther rfl rfl rfl

theorem Books.destroy (hp : p ∈ P) (ha : (s.port p).active) (circular : Bool) :
    Books P (ipcPortDestroy s p circular) owed := by
  unfold ipcPortDestroy
  split
  next hpd => exact h.die hp ha hpd
  next q hq =>
    have hreg : (s.port p).registered =
        {.sendOnce q} + ({ s.port p with pdrequest := none } : Port).registered := by
      rw [registered_of_active ha, registered_of_active (x := { s.port p with pdrequest := none }) ha, hq]
      show sonces _ + {.sendOnce q} + _ = {.sendOnce q} + (sonces _ + 0 + _)
      abel
    obtain ⟨hq', hrest⟩ := h.known hreg
    have hset := h.setRequests (x := { s.port p with pdrequest := none }) hp rfl rfl rfl hrest
    rw [hreg, tally_add, ← add_assoc, add_sub_cancel_right] at hset
    have hlimbo := hset.limbo p
    split
    · have hrelease := hlimbo.releaseSonce q
      rw [add_sub_cancel_right] at hrelease
      have hsame : SamePort ((ipcPortReleaseSonce ((s.setPort p { s.port p with
          pdrequest := none }).limbo p) q).port p) (((s.setPort p { s.port p with
          pdrequest := none }).limbo p).port p) :=
        samePort_setPort _ q _ (by exact ⟨rfl, rfl, rfl, rfl⟩) p
      have hport : ((s.setPort p { s.port p with pdrequest := none }).limbo p).port p =
          { s.port p with pdrequest := none, receiverName := 0, data := .destination none } := by
        rw [State.limbo, setPort_self, setPort_self]
      refine hrelease.die hp ?_ ?_
      · rw [hsame.active, hport]
        exact ha
      · rw [hsame.pdrequest, hport]
    · have hnotify := (hlimbo.transit p q).notify (n := .portDestroyed q p)
        (known_add.mpr ⟨hq', known_singleton (r := .receive p) hp⟩)
      refine hnotify.congr fun r hr => ?_
      show owed r = owed r + tally {.sendOnce q} r - tally ({.sendOnce q} + {.receive p}) r
      rw [tally_add, Pi.add_apply, tally_singleton (.receive p), if_neg, add_zero, add_sub_cancel_right]
      rintro rfl
      exact hr.2 rfl

end

end

end Mach.Ipc.Rights
