import Mathlib.Algebra.BigOperators.Group.List.Basic
import Mach.Ipc.RightCopyKeep

/-!
# The invariant in every state

The remaining functions on rights, and the steps of the system: the invariant holds in
every state that is reached.
-/

namespace Mach.Ipc.Rights

open Function Option Multiset State

section

variable {full : Prop} {hole : Option (Key × PortId)} {stray : Option PortId} {s : State}
  {naked : PortId → Nat} {pend : Key → Option Pending} {k k' : Key} {p : PortId} {nomem : Bool}

/-! ## Renaming -/

theorem setEntry_comm (s : State) (hne : k' ≠ k) (e e' : Entry) :
    (s.setEntry k' e').setEntry k e = (s.setEntry k e).setEntry k' e' := by
  simp only [State.setEntry, update_comm hne]

theorem Inv.moveRequests (h : Inv full none none s naked pend) (s' : State)
    (hentry : s'.entry = update s.entry k .blank)
    (hactive : ∀ q, (s'.port q).active → (s.port q).active)
    (hdn : ∀ q, (s'.port q).dnrequests = (s.port q).dnrequests) (k' : Key) :
    Requests s' k' (s.entry k) := by
  intro q hq ha h0
  obtain ⟨t, n, r, ht, hslot⟩ := h.request k q hq (hactive q ha) h0
  refine ⟨⟨t, n, r, (hdn q).trans ht, hslot⟩, fun k'' _ ho heq => ?_⟩
  rw [hentry] at ho heq
  by_cases hk : k'' = k
  · subst hk
    rw [update_self] at ho
    cases ho
  · rw [update_of_ne hk] at ho heq
    exact hk (h.apart k k'' q hq ho (hactive q ha) h0 heq.symm).symm

theorem Inv.renamePlain (h : Inv full none none s naked pend) (hne : k' ≠ k)
    (hk' : (s.entry k').bits.type = .none) (hp : pend k = none) (hp' : pend k' = none)
    (hreceive : (s.entry k).bits.receive = false) (hsend : (s.entry k).bits.type ≠ .send) :
    Inv full none none ((s.setEntry k' (s.entry k)).setEntry k .blank) naked pend := by
  rw [setEntry_comm s hne]
  have hblank := (h.loose fun _ => hsend).setPlain .blank nofun hp hreceive
  have hsame : (s.setEntry k .blank).entry k' = s.entry k' := update_of_ne hne ..
  refine hblank.setEntry unexcused (.inl rfl) (h.ok k)
    (h.object k) (hblank.keepReceive fun q => ?_) (fun hx => hblank.keepMapped hx fun q => ?_)
    (h.moveRequests (s.setEntry k .blank) rfl (fun _ => id) (fun _ => rfl) k') (not_pending hp' _)
  · rw [hsame]
    exact iff_of_false (not_receives hreceive q) (not_receives (h.vacant hk').1 q)
  · rw [hsame]
    exact iff_of_false (fun hq => hsend hq.1) ((h.vacant hk').2 q)

variable {u i : Nat} {m : Bool} {name : Name}

section

variable (h : Inv full none none s naked pend) (hne : (k.1, name) ≠ k)
  (hk' : (s.entry (k.1, name)).bits.type = .none) (hp : pend k = none)
  (hp' : pend (k.1, name) = none)
include h hne hk' hp hp'

theorem Inv.renameSend
    (he : s.entry k = ⟨⟨u, true, false, false, false, false, m⟩, some (.port p), i⟩)
    (hfull : full → nomem = false) :
    Inv full none none ((ipcReverseInsert (ipcReverseRemove (s.setEntry (k.1, name) (s.entry k)) k.1 p)
      k.1 p name nomem).setEntry k .blank) naked pend := by
  have hsend : (s.entry k).sendTo p := by rw [he]; exact ⟨rfl, rfl⟩
  have hblank := (h.looseRemove hsend).setPlain .blank nofun hp
    (show (s.entry k).bits.receive = false by rw [he])
  have hsame : ((ipcReverseRemove s k.1 p).setEntry k .blank).entry (k.1, name) =
      s.entry (k.1, name) := update_of_ne hne ..
  have hins := hblank.reverseInsert (p := p)
    (fun q => by rw [hsame]; exact (h.vacant hk').2 q) nomem
  obtain ⟨hentry, hport, hports, -⟩ := ipcReverseInsert_fields
    ((ipcReverseRemove s k.1 p).setEntry k .blank) k.1 p name nomem
  show Inv full none none ((ipcReverseInsert ((ipcReverseRemove s k.1 p).setEntry (k.1, name)
    (s.entry k)) k.1 p name nomem).setEntry k .blank) naked pend
  rw [ipcReverseInsert_setEntry, setEntry_comm _ hne, ← ipcReverseInsert_setEntry]
  refine hins.setEntry excused_only (.inr rfl) (h.ok k)
    (hports ▸ h.object k) (hins.keepReceive fun q => ?_) (fun _ hs => ⟨fun q hq => ?_, fun hf q hq => ?_⟩)
    (h.moveRequests _ hentry (fun q => by rw [hport]; exact id) (fun q => by rw [hport]; rfl) _)
    (not_pending hp' _)
  · rw [hentry, hsame]
    exact iff_of_false (not_receives (by rw [he]) q) (not_receives (h.vacant hk').1 q)
  · obtain rfl := hins.only _ p rfl hs q hq
    refine ⟨hsend, fun hf ha => ?_⟩
    rw [hport] at ha ⊢
    have hspace : (s.space k.1).isActive := (setReverse_space s k.1 k.1 q q none).1.symm.trans
        ((ipcReverseInsert_space ((ipcReverseRemove s k.1 q).setEntry k .blank) k.1 k.1 q q name
          nomem).1.symm.trans hs)
    exact h.merged hf k.1 q k.2 hspace (h.complete hf k q hspace (not_excused_none _) hsend)
      (not_excused_none _) ha
  · cases hsend.unique hq
    obtain rfl := hfull hf
    exact ipcReverseInsert_self ((setReverse_space s k.1 k.1 p p none).2.trans (if_pos ⟨rfl, rfl⟩))

theorem Inv.renameReceive (hk : (s.entry k).receives p) (hsend : (s.entry k).bits.type ≠ .send) :
    Inv full none none (((s.setEntry (k.1, name) (s.entry k)).setPort p { s.port p with
      receiverName := name }).setEntry k .blank) naked pend := by
  obtain ⟨-, hactive, hdata, -⟩ := h.receives k p hk
  have hblank := (h.loose fun _ => hsend).blank hp fun _ => hk.2
  rw [hk.1] at hblank
  have hset := hblank.setStray (x := { s.port p with receiverName := name }) rfl rfl
    fun hf sp n hd hs hn => absurd hd (h.merged hf sp p n hs hn (not_excused_none _) hactive)
  have hsame : (s.setEntry k .blank).entry (k.1, name) = s.entry (k.1, name) := update_of_ne hne ..
  have hport : ∀ q, ((((s.setEntry k .blank).setPort p { s.port p with receiverName := name }).port q).active =
      (s.port q).active) ∧ (((s.setEntry k .blank).setPort p { s.port p with
        receiverName := name }).port q).dnrequests = (s.port q).dnrequests := by
    intro q
    by_cases hq : q = p
    · subst hq
      rw [setPort_self]
      exact ⟨rfl, rfl⟩
    · rw [setPort_of_ne _ _ _ _ hq]
      exact ⟨rfl, rfl⟩
  show Inv full none none (((s.setPort p _).setEntry (k.1, name) (s.entry k)).setEntry k .blank) naked pend
  rw [setEntry_comm _ hne]
  refine hset.setEntry unexcused (.inl rfl) (h.ok k) (h.object k)
    (hset.gainReceive ?_ hk ?_ ?_ ?_) (fun hx => hset.keepMapped hx fun q => ?_)
    (h.moveRequests _ rfl (fun q => ((hport q).1 ▸ ·)) (fun q => (hport q).2) _) (not_pending hp' _)
  · show ((s.setEntry k .blank).entry (k.1, name)).bits.receive = false
    rw [hsame]
    exact (h.vacant hk').1
  · rw [setPort_self]
    exact hactive
  · rw [setPort_self]
    exact hdata
  · rw [setPort_self]
  · show (s.entry k).sendTo q ↔ ((s.setEntry k .blank).entry (k.1, name)).sendTo q
    rw [hsame]
    exact iff_of_false (fun hq => hsend hq.1) ((h.vacant hk').2 q)

theorem Inv.renameEntry (hfull : full → nomem = false) :
    Inv full none none (renameEntry s k name nomem) naked pend := by
  have hplain := h.renamePlain hne hk' hp hp'
  have hreceive := fun q => h.renameReceive (p := q) hne hk' hp hp'
  have hok := h.ok k
  unfold Rights.renameEntry
  generalize he : s.entry k = e at hok hplain hreceive
  cases hok with
  | none | deadName | sendOnce => exact hplain rfl nofun
  | portSet u m i => exact (hplain rfl nofun).setPset i _
  | send u m q i =>
    have := h.renameSend hne hk' hp hp' he hfull
    rw [he] at this
    exact this
  | receive u m q i | sendReceive u m q i => exact hreceive q ⟨rfl, rfl⟩ nofun

end

variable {x : Port} {sp : Special}

theorem Port.slotUsed.dnrename {i j : Nat} {name : Name} (h : x.slotUsed j) :
    (ipcPortDnrename x i name).slotUsed j := by
  obtain ⟨t, n, q, ht, hslot⟩ := h
  unfold ipcPortDnrename
  rw [ht]
  simp only
  split
  next n' q' hi =>
    by_cases hij : i - 1 = j - 1
    · refine ⟨_, name, q', rfl, ?_⟩
      rw [hij, List.getElem?_set_self (List.getElem?_eq_some_iff.mp hslot).1]
    · refine ⟨_, n, q, rfl, ?_⟩
      rw [List.getElem?_set_ne hij]
      exact hslot
  · exact ⟨t, n, q, ht, hslot⟩

theorem ipcPortDnrename_eq (x : Port) (i : Nat) (name : Name) :
    ∃ t, ipcPortDnrename x i name = { x with dnrequests := t } := by
  unfold ipcPortDnrename
  split
  · exact ⟨_, rfl⟩
  · split <;> exact ⟨_, rfl⟩

theorem ipcRightCheck_entry (hne : k' ≠ k) : (ipcRightCheck s p k).1.entry k' = s.entry k' := by
  unfold ipcRightCheck
  split
  · rfl
  refine (update_of_ne hne ..).trans ?_
  show (State.entry (if _ then _ else _)) k' = _
  split
  · rw [ipcReverseRemove, setReverse_entry, (cancelIf_fields _ _ _).1]
  · rfl

theorem Inv.marequestRename (h : Inv full hole stray s naked pend) (sp : SpaceId) (old new : Name) :
    Inv full hole stray (ipcMarequestRename s sp old new) naked pend ∧
      (ipcMarequestRename s sp old new).entry = s.entry := by
  unfold ipcMarequestRename
  split
  · exact ⟨h, rfl⟩
  · exact ⟨h.congr (fun _ => rfl) rfl, rfl⟩

theorem ipcPortDnrequest_some {y : Port} {r : Nat} {q : PortId}
    (h : ipcPortDnrequest x name q = some (y, r)) :
    (∃ t, y = { x with dnrequests := t }) ∧ y.slotUsed r ∧
      ∀ j ≠ 0, x.slotUsed j → y.slotUsed j ∧ j ≠ r := by
  unfold ipcPortDnrequest at h
  split at h
  · cases h
  rename_i t ht
  obtain ⟨h0, h⟩ := ite_none_left_eq_some.mp h
  split at h
  next next hfree =>
    cases h
    have hlt := (List.getElem?_eq_some_iff.mp hfree).1
    refine ⟨⟨_, rfl⟩, ⟨_, name, q, rfl, List.getElem?_set_self hlt⟩, fun j hj hx => ?_⟩
    obtain ⟨t', n', q', ht', hslot⟩ := hx
    rw [ht] at ht'
    cases ht'
    have hne : t.next - 1 ≠ j - 1 := by
      intro heq
      rw [heq, hslot] at hfree
      cases hfree
    refine ⟨⟨_, n', q', rfl, ?_⟩, by omega⟩
    rw [List.getElem?_set_ne hne]
    exact hslot
  · cases h

theorem dnrequestDead_cases {Q : KernReturn × State × Option PortId → Prop} (immediate : Bool)
    (notify : Option PortId) (hfailed : ∀ r ≠ .success, Q (r, s, none)) :
    (∀ q ∈ notify, Q (.success,
      (s.setUrefs k ((s.entry k).bits.urefs + 1)).notify (.deadName q k.2), none)) →
    Q (match (s.entry k).bits.deadName && immediate, notify with
      | true, some q =>
        if urefsOverflow (s.entry k).bits.urefs 1 then (KernReturn.urefsOverflow, s, none)
        else (.success, (s.setUrefs k ((s.entry k).bits.urefs + 1)).notify (.deadName q k.2), none)
      | _, _ => (if (s.entry k).bits.portRights || (s.entry k).bits.deadName then
          .invalidArgument else .invalidRight, s, (none : Option PortId))) := by
  intro hnote
  split
  next q _ =>
    split
    · exact hfailed _ nofun
    · exact hnote q rfl
  · refine hfailed _ ?_
    split <;> exact nofun

theorem Inv.lookupNotify (h : Inv full hole stray s naked pend) (sp : SpaceId) (name : Name) :
    Inv full hole stray (ipcPortLookupNotify s sp name).1 naked pend ∧
      (ipcPortLookupNotify s sp name).1.entry = s.entry := by
  unfold ipcPortLookupNotify
  split
  · exact ⟨h, rfl⟩
  split
  · exact ⟨h.setPort _ _ rfl, rfl⟩
  · exact ⟨h, rfl⟩

theorem Inv.unstray (h : Inv full hole (some p) s naked pend)
    (hdata : (s.port p).data = .special sp) : Inv full hole none s naked pend := by
  refine { h with
    receives := fun k q hr => ⟨nofun, (h.receives k q hr).2⟩
    receiver := fun q sp _ ha hd hs => h.receiver q sp (fun heq => ?_) ha hd hs
    naked := fun q hq => ⟨(h.naked q hq).1, nofun, (h.naked q hq).2.2⟩ }
  cases heq
  rw [hdata] at hd
  cases hd

theorem Inv.strayKernel (h : Inv full hole none s naked pend)
    (hdata : (s.port p).data = .special sp) : Inv full hole (some p) s naked pend := by
  have hzero : nakedReceives naked s p = 0 := by
    by_contra hne
    obtain ⟨-, -, -, dest, hdest⟩ := h.naked p hne
    rw [hdata] at hdest
    cases hdest
  obtain ⟨hnaked, hnoted⟩ := Nat.add_eq_zero_iff.mp hzero
  have hstray := h.strayAt (fun sp' heq => by rw [hdata] at heq; cases heq) hnoted
  rwa [← hnaked, update_eq_self] at hstray

section

variable (h : Inv full none none s naked pend)
include h

theorem Inv.renameRequest (hp : pend k = none) (name : Name) :
    Inv full none none (renameRequest s k name) naked pend ∧
      ∀ k' ≠ k, (Rights.renameRequest s k name).entry k' = s.entry k' := by
  unfold Rights.renameRequest
  split
  · exact ⟨h, fun _ _ => rfl⟩
  next p hport =>
    have hk := Entry.object_of_port hport
    split
    · exact ⟨h, fun _ _ => rfl⟩
    by_cases ha : (s.port p).active
    · rw [ipcRightCheck_live ha]
      obtain ⟨t, ht⟩ := ipcPortDnrename_eq (s.port p) (s.entry k).request name
      refine ⟨h.setTable p _ ?_ ?_ ?_ fun k' ho ha h0 => (h.request k' p ho ha h0).dnrename, fun _ _ => rfl⟩
      all_goals rw [ht]
    · have hdead := (ipcRightCheck_dead (k := k) ha).1
      rw [show ipcRightCheck s p k = ((ipcRightCheck s p k).1, true) from Prod.ext rfl hdead]
      exact ⟨h.check hk hp, fun k' hk' => ipcRightCheck_entry hk'⟩

theorem Inv.rename (hne : (k.1, name) ≠ k) (hk' : (s.entry (k.1, name)).bits.type = .none)
    (hp : pend k = none) (hp' : pend (k.1, name) = none) (hfull : full → nomem = false) :
    Inv full none none (ipcRightRename s k name nomem) naked pend := by
  obtain ⟨hrequest, hentry⟩ := h.renameRequest hp name
  unfold ipcRightRename
  simp only
  split
  · obtain ⟨hma, hma'⟩ := hrequest.marequestRename k.1 k.2 name
    refine hma.renameEntry hne ?_ hp hp' hfull
    rwa [hma', hentry _ hne]
  · refine hrequest.renameEntry hne ?_ hp hp' hfull
    rwa [hentry _ hne]

/-! ## Requests -/

theorem Inv.newRequest (hk : (s.entry k).object = some (.port p)) {r : Nat} {q : PortId}
    (hx : ipcPortDnrequest (s.port p) name q = some (x, r)) :
    Inv full none none ((s.setPort p x).setEntry k { s.entry k with request := r }) naked pend := by
  obtain ⟨⟨t, ht⟩, hused, hothers⟩ := ipcPortDnrequest_some hx
  have hset := h.setTable p x (by rw [ht]) (by rw [ht]) (by rw [ht])
    fun k' ho ha h0 => (hothers _ h0 (h.request k' p ho ha h0)).1
  have hok : ({ s.entry k with request := r } : Entry).Ok := by
    have := h.ok k
    generalize s.entry k = e at this hk
    cases this <;> first | (cases hk; done) | constructor
  refine hset.setEntry unexcused (.inl rfl) hok (h.object k)
    (hset.keepReceive fun _ => Iff.rfl) (fun hx => hset.keepMapped hx fun _ => Iff.rfl)
    (fun q ho ha h0 => ?_) fun m hm => ⟨(h.pending k m hm).gone, (h.pending k m hm).same⟩
  obtain rfl : q = p := Object.port.inj (Option.some.inj (ho.symm.trans hk))
  rw [setPort_self] at ha ⊢
  have hactive : (s.port q).active := by rwa [ht] at ha
  refine ⟨hused, fun k' _ ho' heq => ?_⟩
  have hr : (s.entry k').request = r := heq
  refine (hothers _ ?_ (h.request k' q ho' hactive ?_)).2 hr
  · rw [hr]
    exact h0
  · rw [hr]
    exact h0

theorem Inv.dnrequest (hp : pend k = none) (immediate : Bool) (notify : Option PortId) :
    Inv full none none (ipcRightDnrequest s k immediate notify).2.1 naked pend := by
  have hdead := fun s' (h' : Inv full none none s' naked pend) => dnrequestDead_cases
    (Q := fun r => Inv full none none r.2.1 naked pend) immediate notify (fun _ _ => h')
    fun _ _ => (h'.setUrefs k _).notify (plain_deadName _ _)
  unfold ipcRightDnrequest
  simp only
  split
  · split
    · exact h
    next p hport =>
      have hk := Entry.object_of_port hport
      refine h.afterCheck (P := fun r : KernReturn × State × Option PortId =>
        Inv full none none r.2.1 naked pend) hk hp (fun s' h' _ => hdead s' h') fun _ => ?_
      obtain ⟨hd, hentry⟩ := h.dncancel unexcused hk
      split
      · exact hd
      split
      · exact hd
      next x r hx => exact hd.newRequest (by rw [hentry]; exact hk) hx
  · exact hdead s h

theorem Inv.dngrow (p : PortId) (n : Nat) :
    Inv full none none (s.setPort p (ipcPortDngrow (s.port p) n)) naked pend := by
  refine h.setTable p _ rfl rfl rfl fun k ho ha h0 => ?_
  obtain ⟨t, name, q, ht, hslot⟩ := h.request k p ho ha h0
  refine ⟨_, name, q, rfl, ?_⟩
  rw [ht, getD_some, List.getElem?_append_left (List.getElem?_eq_some_iff.mp hslot).1]
  exact hslot

theorem Inv.setMarequest (k : Key) (b : Bool) : Inv full none none (s.setEntry k { s.entry k with
      bits := { (s.entry k).bits with marequest := b } }) naked pend := by
  have hok : ({ s.entry k with bits := { (s.entry k).bits with marequest := b } } : Entry).Ok := by
    have := h.ok k
    generalize s.entry k = e at this
    cases this <;> constructor
  exact h.setSame unexcused hok rfl rfl rfl (.inr rfl)

theorem Inv.marequestCreate (i : Nat) (sp : SpaceId) (p : PortId) (notify : Name) :
    Inv full none none (ipcMarequestCreate s i sp p notify).1 naked pend := by
  obtain ⟨hlookup, hentry⟩ := h.lookupNotify sp notify
  unfold ipcMarequestCreate
  split
  · exact h
  split
  next name hname =>
    simp only
    split
    · exact h
    · split
      next s' heq =>
        rw [heq] at hlookup
        exact hlookup
      next s' q heq =>
        rw [heq] at hlookup hentry
        have hset := hlookup.setMarequest (sp, name) true
        rw [hentry] at hset
        exact hset.congr (fun _ => rfl) rfl
  · split
    next s' heq =>
      rw [heq] at hlookup
      exact hlookup
    next s' q heq =>
      rw [heq] at hlookup
      exact hlookup.congr (fun _ => rfl) rfl

theorem Inv.marequestDestroy (i : Nat) :
    Inv full none none (ipcMarequestDestroy s i) naked pend := by
  refine Inv.notify ?_ (plain_msgAccepted _ _)
  split
  · exact h
  have htable : Inv full none none (s.unlinkMarequest (s.marequest i).space (s.marequest i).name)
      naked pend := by
    unfold State.unlinkMarequest
    split
    · exact h
    · exact h.congr (fun _ => rfl) rfl
  simp only
  split
  · exact htable
  · split
    · exact htable
    · exact htable.setMarequest _ false

/-! ## Ports -/

theorem Inv.addPort (hp : p ∉ s.ports) (x : Port) :
    Inv full none (some p) (s.addPort p x) naked pend := by
  have hne : ∀ q ∈ s.ports, q ≠ p := fun q hq heq => hp (heq ▸ hq)
  have hport : ∀ q ≠ p, (s.addPort p x).port q = s.port q := fun q hq => update_of_ne hq ..
  refine { h with
    known := fun q ha => ?_
    object := fun k q ho => Finset.mem_insert_of_mem (h.object k q ho)
    receives := fun k q hr => ?_
    receiver := fun q sp hq ha hd hs => ?_
    naked := fun q hq => ?_
    merged := fun hf sp q n hs hn hx ha => ?_
    request := fun k q ho ha h0 => ?_
    apart := fun k k' q h1 h2 ha => ?_ }
  · show q ∈ insert p s.ports
    by_cases hq : q = p
    · exact hq ▸ Finset.mem_insert_self ..
    · rw [hport q hq] at ha
      exact Finset.mem_insert_of_mem (h.known q ha)
  · have hq := hne q (h.object k q hr.2)
    rw [hport q hq]
    exact ⟨some_ne hq, (h.receives k q hr).2⟩
  · have hqp : q ≠ p := fun heq => hq (heq ▸ rfl)
    rw [hport q hqp] at ha hd ⊢
    exact h.receiver q sp nofun ha hd hs
  · obtain ⟨h1, -, ha, hd⟩ := h.naked q hq
    have hqp := hne q (h.known q ha)
    rw [hport q hqp]
    exact ⟨h1, some_ne hqp, ha, hd⟩
  · have hqp := hne q (h.object _ q (h.sound sp q n hs hn hx).2)
    rw [hport q hqp] at ha ⊢
    exact h.merged hf sp q n hs hn hx ha
  · have hqp := hne q (h.object k q ho)
    rw [hport q hqp] at ha ⊢
    exact h.request k q ho ha h0
  · have hqp := hne q (h.object k q h1)
    rw [hport q hqp] at ha
    exact h.apart k k' q h1 h2 ha

theorem Inv.portAlloc (hp : p ∉ s.ports) (hk : (s.entry k).bits.type = .none)
    (hpend : pend k = none) :
    Inv full none none ((s.addPort p (newPort k.2 (.receiver k.1))).setEntry k
      ⟨{ Bits.zero with receive := true }, some (.port p), 0⟩) naked pend := by
  obtain ⟨hvacant, hnot⟩ := h.vacant hk
  have hadd := h.addPort hp (newPort k.2 (.receiver k.1))
  refine hadd.setNew unexcused (.receive 0 false p 0) rfl
    (Finset.mem_insert_self ..) rfl hpend (hadd.gainReceive hvacant ⟨rfl, rfl⟩ ?_ ?_ ?_)
    (hadd.keepMapped (not_excused_none k) fun q => iff_of_false (fun hq => absurd hq.1 nofun) (hnot q))
  all_goals rw [addPort_self]; rfl

section

variable (hactive : (s.port p).active) (hdata : (s.port p).data = .special sp)
include hactive hdata

theorem Inv.portDeallocSpecial (circular : Bool) :
    Inv full none none (ipcPortDestroy (ipcPortClearReceiver (s.limbo p) p) p circular) naked pend := by
  have hset := (h.strayKernel hdata).setStray
    (x := { s.port p with receiverName := 0, data := .destination none }) rfl rfl fun _ _ _ => nofun
  exact hset.clearDestroy (by rwa [setPort_self]) circular

theorem Inv.kernelMoveReceive :
    Inv full none none ((s.setPort p { s.port p with mscount := 0 }).limbo p)
      (update naked p (naked p + 1)) pend := by
  have hstray := h.strayKernel hdata
  rw [hstray.naked_stray.1]
  exact (hstray.setPort p { s.port p with mscount := 0 } rfl).limbo (by rwa [setPort_self])

end

theorem Inv.releaseReceive (hp : naked p ≠ 0) (circular : Bool) :
    Inv full none none (ipcPortReleaseReceive s p circular) (update naked p 0) pend := by
  obtain ⟨hactive, -, hgrab⟩ := h.grab hp
  exact (hgrab.destroy hactive circular).releaseIf _

theorem Inv.spaceDestroy (sp : SpaceId) : Inv full none none (s.destroySpace sp) naked pend := by
  have hspace : ∀ sp', ((s.destroySpace sp).space sp').isActive →
      (s.destroySpace sp).space sp' = s.space sp' := by
    intro sp' ha
    by_cases hsp : sp' = sp
    · subst hsp
      simp [State.destroySpace] at ha
    · exact update_of_ne hsp ..
  refine { h with
    receiver := fun p sp' hp ha hd hs => h.receiver p sp' hp ha hd (hspace sp' hs ▸ hs)
    sound := fun sp' p n hs hn => ?_
    only := nofun
    merged := fun hf sp' p n hs hn => ?_
    complete := fun hf k p hs => ?_ }
  · have heq := hspace sp' hs
    rw [heq] at hs hn
    exact h.sound sp' p n hs hn
  · have heq := hspace sp' hs
    rw [heq] at hs hn
    exact h.merged hf sp' p n hs hn
  · have heq := hspace k.1 hs
    rw [heq] at hs ⊢
    exact h.complete hf k p hs

end

/-! ## Notifications -/

theorem noted_erase {n : Notification} (hn : n ∈ s.notifications) :
    n.rights + ({ s with notifications := s.notifications.erase n } : State).noted = s.noted := by
  have hperm := ((List.perm_cons_erase hn).map Notification.rights).sum_eq
  exact hperm.symm

theorem Inv.takeNotification {n : Notification} (h : Inv full hole stray s naked pend)
    (hn : n ∈ s.notifications) :
    Inv full hole stray { s with notifications := s.notifications.erase n }
      (fun q => naked q + n.rights.count (.receive q)) pend := by
  refine h.congr (fun q => ?_) rfl
  rw [nakedReceives, nakedReceives, ← noted_erase hn, count_add, Nat.add_assoc]

end

/-! ## The system -/

def Action.nomem : Action → Bool
  | .copyin _ _ _ nomem | .copyout _ _ _ _ nomem _ | .copyoutName _ _ _ _ nomem _ _
  | .rename _ _ nomem => nomem
  | _ => false

def Sys.Inv (full : Prop) (S : Sys) : Prop :=
  Rights.Inv full none none S.st (fun p => S.held.count (.receive p)) S.pending

section

variable {full : Prop} {S S' : Sys}

theorem Sys.Inv.held {s : State} {held : Multiset Right} {pend : Key → Option Pending}
    (h : Rights.Inv full none none s (fun p => S.held.count (.receive p)) pend)
    (hheld : ∀ p, held.count (.receive p) = S.held.count (.receive p)) :
    Rights.Inv full none none s (fun p => held.count (.receive p)) pend := by
  simpa only [hheld] using h

variable {k : Key}

theorem Sys.Inv.copied {msgt : Option Disposition} {rights : PortId → Multiset Right}
    {r : State × Option Copied}
    (h : CopyinOk full (fun p => S.held.count (.receive p)) S.pending k msgt rights r) :
    (S.copied k msgt rights r).Inv full := by
  obtain ⟨hinv, hpending⟩ := h
  unfold Sys.copied
  split
  next hr =>
    rw [hr] at hinv
    exact hinv
  next c hr =>
    rw [hr] at hinv
    refine Rights.Inv.setPending (hinv.congr (fun p => ?_) rfl)
      fun m hm => Option.some.inj hm ▸ hpending c hr
    simp

theorem Sys.Inv.copiedOut {right : Right} {r : KernReturn × State}
    (h : CopyoutOk full (fun p => S.held.count (.receive p)) S.pending right r) :
    Sys.Inv full { S with
      st := r.2, held := if r.1 = .success then S.held.erase right else S.held } := by
  refine h.congr (fun p => ?_) rfl
  simp only [nakedReceives]
  congr 1
  split
  · rw [← sub_singleton, count_sub]
  · rfl

theorem count_erase_plain (m : Multiset Right) {right : Right} (p : PortId) (h : right ≠ .receive p) :
    (m.erase right).count (.receive p) = m.count (.receive p) :=
  count_erase_of_ne h.symm m

theorem count_sub_sonces (m : Multiset Right) (q : Option PortId) (p : PortId) :
    (m - sonces q).count (.receive p) = m.count (.receive p) := by
  rw [count_sub, count_sonces, Nat.sub_zero]

theorem count_add_sonces (m : Multiset Right) (q : Option PortId) (p : PortId) :
    (m + sonces q).count (.receive p) = m.count (.receive p) := by
  rw [count_add, count_sonces, Nat.add_zero]

theorem of_ite_some {α : Type} {c : Prop} [Decidable c] {x y : α}
    (h : (if c then some x else none) = some y) : c ∧ x = y := by
  split at h
  next hc => exact ⟨hc, Option.some.inj h⟩
  · cases h

theorem Sys.Inv.finish (h : S.Inv full) (hstep : step S (.finish k) = some S') : S'.Inv full := by
  simp only [Rights.step] at hstep
  split at hstep
  · cases hstep
  rename_i m hm
  obtain ⟨-, rfl⟩ := of_ite_some hstep
  refine Sys.Inv.held (Inv.notifyIf ?_ (plain_map (plain_portDeleted · k.2))) (count_sub_sonces _ _)
  have hend := h.endCopy k
  split
  next ht => exact hend.freeVacant ht (update_self ..)
  · exact hend

theorem Pending.undoable_some {s : State} {m : Pending} {msgt : Disposition}
    (h : m.undoable s = some msgt) :
    m.msgt = some msgt ∧ msgt ∈ [.copySend, .moveSend, .moveSendOnce] ∧
      ∀ p, m.copied.object = some p → ¬ (s.port p).active := by
  obtain ⟨msgt', object, soright⟩ := m
  cases msgt' with
  | none => cases object <;> cases h
  | some msgt' =>
    cases object with
    | none =>
      obtain ⟨hmem, rfl⟩ := of_ite_some h
      exact ⟨rfl, hmem, nofun⟩
    | some p =>
      obtain ⟨⟨hmem, hdead⟩, rfl⟩ := of_ite_some h
      refine ⟨rfl, hmem, fun q hq => ?_⟩
      cases hq
      exact hdead

theorem Pending.count_rights {m : Pending} {msgt : Disposition} (h : m.msgt = some msgt)
    (hmem : msgt ∈ [.copySend, .moveSend, .moveSendOnce]) (p : PortId) :
    m.rights.count (.receive p) = 0 := by
  obtain ⟨msgt', object, soright⟩ := m
  cases h
  rw [Pending.rights, count_add, count_sonces]
  cases object with
  | none => rfl
  | some q =>
    simp only [List.mem_cons, List.not_mem_nil, or_false] at hmem
    rcases hmem with rfl | rfl | rfl <;> simp [Disposition.right]

theorem Sys.Inv.undo (h : S.Inv full) (hstep : step S (.undo k) = some S') : S'.Inv full := by
  simp only [Rights.step] at hstep
  split at hstep
  · cases hstep
  rename_i m hm
  split at hstep
  · cases hstep
  rename_i msgt hmsgt
  obtain ⟨-, rfl⟩ := of_ite_some hstep
  have hpending := h.pending k m hm
  obtain ⟨heq, hmem, -⟩ := Pending.undoable_some hmsgt
  refine Sys.Inv.held (Inv.notifyIf (Inv.undo (h.endCopy k) ?_ (update_self ..))
    (plain_map (plain_deadName · k.2))) fun p => ?_
  · rw [← heq]
    exact hpending
  · rw [count_sub, Pending.count_rights heq hmem, Nat.sub_zero]

theorem Sys.Inv.dropped {n : Notification} {circular : Bool} (h : S.Inv full)
    (hstep : step S (.dropped n circular) = some S') : S'.Inv full := by
  obtain ⟨hn, rfl⟩ := of_ite_some hstep
  have htake := Rights.Inv.releaseSonce (h.takeNotification hn) n.soright
  have hplain : n.Plain → Rights.Inv full none none (ipcPortReleaseSonce
      { S.st with notifications := S.st.notifications.erase n } n.soright)
      (fun p => S.held.count (.receive p)) S.pending := by
    intro hn
    refine htake.congr (fun p => ?_) rfl
    simp [nakedReceives, hn p]
  cases n with
  | portDestroyed q p =>
    -- the receive right is destroyed with the notification
    have hrights : ∀ r, (Notification.portDestroyed q p).rights.count (.receive r) =
        if r = p then 1 else 0 := by
      intro r
      simp [Notification.rights, count_singleton]
    have hnaked : (fun r => S.held.count (.receive r) +
        (Notification.portDestroyed q p).rights.count (.receive r)) p ≠ 0 := by
      simp only [hrights, if_true]
      omega
    have hone : S.held.count (.receive p) + 1 = 1 := by
      have := (htake.grab hnaked).2.1
      simpa [hrights] using this
    have hheld : (update (fun r => S.held.count (.receive r) +
        (Notification.portDestroyed q p).rights.count (.receive r)) p 0) =
        fun r => S.held.count (.receive r) := by
      funext r
      by_cases hr : r = p
      · subst hr
        rw [update_self]
        omega
      · rw [update_of_ne hr, hrights, if_neg hr, Nat.add_zero]
    have hrelease := htake.releaseReceive hnaked circular
    rw [hheld] at hrelease
    exact hrelease
  | portDeleted q name => exact hplain (plain_portDeleted q name)
  | msgAccepted q name => exact hplain (plain_msgAccepted q name)
  | noSenders q count => exact hplain (plain_noSenders q count)
  | sendOnce q => exact hplain (plain_sendOnce q)
  | deadName q name => exact hplain (plain_deadName q name)

theorem Sys.Inv.step {a : Action} (h : S.Inv full) (hmem : full → a.nomem = false)
    (hstep : step S a = some S') : S'.Inv full := by
  cases a with
  | copyin k msgt deadok nomem =>
    obtain ⟨⟨-, -, hp⟩, rfl⟩ := of_ite_some hstep
    exact Sys.Inv.copied (h.copyin hp msgt deadok nomem hmem)
  | copyinTwo k =>
    obtain ⟨⟨-, -, hp⟩, rfl⟩ := of_ite_some hstep
    exact Sys.Inv.copied (h.copyinTwo hp (by simp))
  | finish k => exact h.finish hstep
  | undo k => exact h.undo hstep
  | copyout sp p msgt overflow nomem fresh =>
    obtain ⟨⟨hheld, hidle, hfresh⟩, rfl⟩ := of_ite_some hstep
    refine Sys.Inv.copiedOut (h.copyout sp msgt overflow fresh hidle
      (fun name hn => ⟨(hfresh name hn).1, (hfresh name hn).2.1⟩) ?_ hmem)
    rintro rfl
    exact count_ne_zero.mpr hheld
  | copyoutName sp p msgt overflow nomem fresh name =>
    obtain ⟨⟨hheld, hp, -⟩, rfl⟩ := of_ite_some hstep
    refine Sys.Inv.copiedOut (h.copyoutName sp msgt overflow fresh name hp ?_ hmem)
    rintro rfl
    exact count_ne_zero.mpr hheld
  | dealloc k =>
    obtain ⟨⟨-, -, hp⟩, rfl⟩ := of_ite_some hstep
    exact h.drops hp h.dealloc_drops
  | delta k right delta circular =>
    obtain ⟨⟨-, -, hp⟩, rfl⟩ := of_ite_some hstep
    exact h.delta hp right delta circular
  | destroy k circular =>
    obtain ⟨⟨-, -, hp⟩, rfl⟩ := of_ite_some hstep
    exact h.destroyRight hp circular
  | clean k circular =>
    obtain ⟨⟨hs, -, hp⟩, rfl⟩ := of_ite_some hstep
    exact h.clean hs hp circular
  | check k =>
    simp only [Rights.step] at hstep
    split at hstep
    next p hrights hport =>
      obtain ⟨⟨-, -, hp⟩, rfl⟩ := of_ite_some hstep
      exact h.check (Entry.object_of_port hport) hp
    · cases hstep
  | rename k nname nomem =>
    obtain ⟨⟨⟨-, hk, hp⟩, hk', hp', -⟩, rfl⟩ := of_ite_some hstep
    refine h.rename (fun heq => hk ?_) hk' hp hp' hmem
    rw [← heq]
    exact hk'
  | dnrequest k immediate notify =>
    obtain ⟨⟨⟨-, -, hp⟩, -⟩, rfl⟩ := of_ite_some hstep
    refine Sys.Inv.held (h.dnrequest hp immediate notify) fun p => ?_
    rw [count_add_sonces]
    split
    · exact count_sub_sonces _ _ _
    · rfl
  | dngrow p n =>
    obtain ⟨-, rfl⟩ := of_ite_some hstep
    exact h.dngrow p n
  | makeSend p | makeSonce p =>
    obtain ⟨-, rfl⟩ := of_ite_some hstep
    exact Sys.Inv.held (h.setPort p _ rfl) fun q => by simp
  | copySend p =>
    obtain ⟨-, rfl⟩ := of_ite_some hstep
    simp only [ipcPortCopySend]
    split
    · exact Sys.Inv.held (h.copySright p) fun q => by simp
    · exact Sys.Inv.held h fun q => by simp
  | releaseSend p =>
    obtain ⟨-, rfl⟩ := of_ite_some hstep
    refine Sys.Inv.held ?_ fun q => count_erase_plain _ q (by simp)
    unfold ipcPortReleaseSend
    simp only
    split
    · exact ((h.release p).dropSright p).notifyIf plain_dropSright
    · exact h.release p
  | releaseSonce p =>
    obtain ⟨-, rfl⟩ := of_ite_some hstep
    exact Sys.Inv.held (h.releaseSonce p) fun q => count_erase_plain _ q (by simp)
  | releaseReceive p circular =>
    obtain ⟨hheld, rfl⟩ := of_ite_some hstep
    have hnaked : S.held.count (.receive p) ≠ 0 := count_ne_zero.mpr hheld
    have hone := (h.grab hnaked).2.1
    refine (h.releaseReceive hnaked circular).congr (fun q => ?_) rfl
    simp only [nakedReceives]
    by_cases hq : q = p
    · subst hq
      rw [update_self, count_erase_self, hone]
    · rw [update_of_ne hq, count_erase_of_ne (by simpa using hq)]
  | nsrequest p sync notify =>
    obtain ⟨-, rfl⟩ := of_ite_some hstep
    refine Sys.Inv.held ?_ fun q => by rw [count_add_sonces, count_sub_sonces]
    unfold ipcPortNsrequest
    simp only
    split
    · split
      · refine Rights.Inv.notify ?_ (plain_noSenders _ _)
        exact h.setPort p _ rfl
      · exact h.setPort p _ rfl
    · exact h.setPort p _ rfl
  | pdrequest p notify =>
    obtain ⟨-, rfl⟩ := of_ite_some hstep
    refine Sys.Inv.held (h.setPort p _ rfl) fun q => ?_
    rw [count_add_sonces, count_sub_sonces]
  | marequestCreate i sp p notify =>
    obtain ⟨-, rfl⟩ := of_ite_some hstep
    exact Sys.Inv.held (h.marequestCreate i sp p notify) (count_add_sonces _ _)
  | marequestDestroy i =>
    obtain ⟨-, rfl⟩ := of_ite_some hstep
    exact Sys.Inv.held (h.marequestDestroy i) fun q => count_erase_plain _ q (by simp)
  | portAlloc p k =>
    obtain ⟨⟨hp, -, hk, hpend, -⟩, rfl⟩ := of_ite_some hstep
    exact h.portAlloc hp hk hpend
  | portAllocSpecial p sp =>
    obtain ⟨hp, rfl⟩ := of_ite_some hstep
    exact Rights.Inv.unstray (h.addPort hp _) (congrArg Port.data (addPort_self ..))
  | portDeallocSpecial p circular =>
    simp only [Rights.step] at hstep
    split at hstep
    next sp hactive hdata =>
      cases hstep
      exact h.portDeallocSpecial hactive hdata circular
    · cases hstep
  | kernelMoveReceive p =>
    simp only [Rights.step] at hstep
    split at hstep
    next hactive hdata =>
      cases hstep
      refine (h.kernelMoveReceive hactive hdata).congr (fun q => ?_) rfl
      simp only [nakedReceives]
      by_cases hq : q = p
      · subst hq
        rw [update_self, count_cons_self]
      · rw [update_of_ne hq, count_cons_of_ne (by simpa using hq)]
    · cases hstep
  | transit p dest =>
    obtain ⟨⟨hheld, -, -⟩, rfl⟩ := of_ite_some hstep
    exact h.transit (count_ne_zero.mpr hheld) dest
  | psetAlloc i k =>
    obtain ⟨⟨-, hk, hp, -⟩, rfl⟩ := of_ite_some hstep
    have hset := h.setPset i ⟨true, 1, k.2⟩
    have htype : ((S.st.setPset i ⟨true, 1, k.2⟩).entry k).bits.type ≠ .send := by
      show (S.st.entry k).bits.type ≠ .send
      rw [hk]
      decide
    exact (hset.loose fun _ => htype).setPlain (.portSet 0 false i) (by simp) hp (h.vacant hk).1
  | allocDead k =>
    obtain ⟨⟨-, hk, hp, -⟩, rfl⟩ := of_ite_some hstep
    exact (h.loose fun _ => by rw [hk]; decide).setPlain (.deadName 1 false) (by simp) hp (h.vacant hk).1
  | spaceDestroy sp =>
    cases hstep
    exact h.spaceDestroy sp
  | sent n =>
    obtain ⟨hn, rfl⟩ := of_ite_some hstep
    refine (h.takeNotification hn).congr (fun p => ?_) rfl
    simp
  | dropped n circular => exact h.dropped hstep

theorem Sys.Inv.init (h : Rights.init S) : S.Inv full := by
  have hentry := h.entries
  have hdead := h.dead
  have hmap := h.reverse
  refine ⟨fun p ha => ?_, ?_, fun k => ?_, fun k p ho => ?_, fun k p hr => ?_, fun p sp _ ha => ?_,
    fun p hp => ?_, fun sp p n _ hn => ?_, nofun, fun _ sp p n _ hn => ?_, fun _ k p _ _ hp => ?_,
    fun k p ho => ?_, fun k k' p ho => ?_, fun k m hm => ?_⟩
  · rw [hdead p] at ha
    cases ha
  · refine Set.finite_empty.subset fun k hk => hk ?_
    rw [hentry k]
    rfl
  · rw [hentry k]
    exact .blank
  · rw [hentry k] at ho
    cases ho
  · rw [hentry k] at hr
    cases hr.1
  · rw [hdead p] at ha
    cases ha
  · simp [nakedReceives, State.noted, h.held, h.notifications] at hp
  · rw [hmap sp p] at hn
    cases hn
  · rw [hmap sp p] at hn
    cases hn
  · rw [hentry k] at hp
    cases hp.1
  · rw [hentry k] at ho
    cases ho
  · rw [hentry k] at ho
    cases ho
  · rw [h.pending k] at hm
    cases hm

theorem Sys.Inv.reach {ok : Sys → Action → Prop} (hok : ∀ S a, ok S a → full → a.nomem = false)
    (h : lts.Reach ok S) : S.Inv full :=
  h.inv (fun _ h0 => .init h0) fun S a _ hinv ha hstep => hinv.step (hok S a ha) hstep

end

end Mach.Ipc.Rights
