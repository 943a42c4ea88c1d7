import Mach.Ipc.RightCountCopy
import Mach.Ipc.RightReverse

/-!
# The counters of a port are right

`ip_srights` is the number of entries with a send right to the port, in all spaces, and of
naked send rights; `ip_sorights` is the same for send-once rights. It holds in every state
of every run that does not strand a send right: a run does when `ipc_right_delta` takes a
receive right from an entry that has a send right as well, and the port has a
port-destroyed request and lives on.
-/

namespace Mach.Ipc.Rights

open Function List Option Multiset State Finset

section

variable {P : Finset PortId} {full : Prop} {s : State} {naked : PortId → Nat}
  {pend : Key → Option Pending} {owed : Right → Count} {k : Key} {p q : PortId} {name : Name}

/-! ## Renaming -/

theorem ipcPortDnrename_dnRights (x : Port) (i : Nat) (name : Name) :
    (ipcPortDnrename x i name).dnRights = x.dnRights := by
  unfold ipcPortDnrename
  split
  · rfl
  next t ht =>
    split
    next n q hslot =>
      have hslots := sum_set_slots (.used name q) hslot
      rw [Port.dnRights, Port.dnRights, ht]
      exact add_right_cancel hslots
    · rfl

section

variable (h : Books P s owed)
include h

theorem Books.setTable {t : Option DnTable}
    (ht : ({ s.port p with dnrequests := t } : Port).dnRights = (s.port p).dnRights) :
    Books P (s.setPort p { s.port p with dnrequests := t }) owed := by
  refine h.setOther rfl ?_ rfl
  by_cases ha : (s.port p).active
  · have htable := registered_table ha t
    rw [ht] at htable
    exact (add_right_cancel htable).symm
  · rw [Port.registered, Port.registered, if_neg ha, if_neg ha]

theorem Books.renameRequest (k : Key) (name : Name) : Books P (renameRequest s k name) owed := by
  unfold Rights.renameRequest
  split
  · exact h
  next p hport =>
    have hk := Entry.object_of_port hport
    split
    · exact h
    by_cases ha : (s.port p).active
    · rw [ipcRightCheck_live ha]
      obtain ⟨t, ht⟩ := ipcPortDnrename_eq (s.port p) (s.entry k).request name
      have hsame := ipcPortDnrename_dnRights (s.port p) (s.entry k).request name
      simp only [ht] at hsame ⊢
      exact h.setTable hsame
    · have hdead := (ipcRightCheck_dead (k := k) ha).1
      rw [show ipcRightCheck s p k = ((ipcRightCheck s p k).1, true) from Prod.ext rfl hdead]
      exact h.check hk

theorem Books.renameEntry (hne : (k.1, name) ≠ k)
    (hk' : (s.entry (k.1, name)).rights = 0) (nomem : Bool) :
    Books P (renameEntry s k name nomem) owed := by
  have hset := h.setEntry (k.1, name) (s.entry k)
  rw [hk', tally_zero, add_zero] at hset
  have hsame : (s.setEntry (k.1, name) (s.entry k)).entry k = s.entry k := update_of_ne hne.symm ..
  -- whatever happens in between leaves the entries alone
  have hclear : ∀ t : State, t.entry = (s.setEntry (k.1, name) (s.entry k)).entry →
      Books P t (owed - tally (s.entry k).rights) → Books P (t.setEntry k .blank) owed := by
    intro t ht hbooks
    have hblank := hbooks.clear (e := .blank) (by rw [ht, hsame]) rfl
    rwa [sub_add_cancel] at hblank
  unfold Rights.renameEntry
  simp only
  split
  · refine hclear _ ?_ ((hset.reverseRemove k.1 _).reverseInsert k.1 _ name nomem)
    exact (ipcReverseInsert_fields _ _ _ _ _).1
  · exact hclear _ rfl (hset.setOther rfl rfl rfl)
  · exact hclear _ rfl (hset.setOther rfl rfl rfl)
  · exact hclear _ rfl (hset.of_eq rfl)
  · exact hclear _ rfl hset

theorem Books.rename (hinv : Inv full none none s naked pend)
    (hpend : pend k = none) (hne : (k.1, name) ≠ k)
    (hk' : (s.entry (k.1, name)).bits.type = .none) (nomem : Bool) :
    Books P (ipcRightRename s k name nomem) owed := by
  have hentry := (hinv.renameRequest hpend name).2 _ hne
  have hrequest := h.renameRequest k name
  have hrights := rights_of_none (hinv.ok _) hk'
  unfold ipcRightRename
  simp only
  split
  · have hma : Books P (ipcMarequestRename (Rights.renameRequest s k name) k.1 k.2 name) owed ∧
        (ipcMarequestRename (Rights.renameRequest s k name) k.1 k.2 name).entry =
          (Rights.renameRequest s k name).entry := by
      unfold ipcMarequestRename
      split
      · exact ⟨hrequest, rfl⟩
      · exact ⟨hrequest.of_eq rfl, rfl⟩
    refine hma.1.renameEntry hne ?_ nomem
    rwa [hma.2, hentry]
  · refine hrequest.renameEntry hne ?_ nomem
    rwa [hentry]

end

/-! ## Requests -/

variable {x : Port} {notify : Option PortId}

theorem ipcPortDnrequest_registered {y : Port} {r : Nat} (ha : x.active)
    (h : ipcPortDnrequest x name q = some (y, r)) :
    y.registered = x.registered + {.sendOnce q} := by
  unfold ipcPortDnrequest at h
  split at h
  · cases h
  rename_i t ht
  split at h
  · cases h
  split at h
  next next hfree =>
    cases h
    have hslots := sum_set_slots (.used name q) hfree
    have htable := registered_table ha (some ⟨next, t.slots.set (t.next - 1) (.used name q)⟩)
    refine add_right_cancel (htable.symm.trans ?_)
    rw [add_right_comm, add_assoc]
    congr 1
    rw [Port.dnRights, Port.dnRights, ht]
    exact (add_zero _).symm.trans hslots
  · cases h

theorem growSlots_rights : ∀ n size free, ((growSlots n size free).1.map DnSlot.rights).sum = 0
  | 0, _, _ => rfl
  | n + 1, size, free => by
    simp only [growSlots, List.map_cons, List.sum_cons, growSlots_rights n]
    rfl

theorem registered_nsrequest (ha : x.active) (n : Option PortId) :
    ({ x with nsrequest := n } : Port).registered + sonces x.nsrequest = x.registered + sonces n := by
  rw [registered_of_active ha, registered_of_active (x := { x with nsrequest := n }) ha]
  abel

theorem registered_pdrequest (ha : x.active) (n : Option PortId) :
    ({ x with pdrequest := n } : Port).registered + sonces x.pdrequest = x.registered + sonces n := by
  rw [registered_of_active ha, registered_of_active (x := { x with pdrequest := n }) ha]
  abel

section

variable (h : Books P s owed)
include h

theorem Books.newRequest (hp : p ∈ P) (hq : q ∈ P) (ha : (s.port p).active) {r : Nat}
    (hx : ipcPortDnrequest (s.port p) name q = some (x, r)) :
    Books P ((s.setPort p x).setEntry k { s.entry k with request := r }) (owed - tally {.sendOnce q}) := by
  obtain ⟨⟨t, ht⟩, -, -⟩ := ipcPortDnrequest_some hx
  have hreg := ipcPortDnrequest_registered ha hx
  have hset := h.setRequests (x := x) hp (by rw [ht]) (by rw [ht]) (by rw [ht])
    (by rw [hreg]; exact known_add.mpr ⟨h.registered p, known_singleton hq⟩)
  rw [hreg, tally_add, ← sub_sub, add_sub_cancel_right] at hset
  exact hset.setSame rfl

/-- What `ipc_right_dnrequest` owes: the request it replaces, and it takes the right that it
registers or uses. -/
def DnrequestBooks (P : Finset PortId) (owed : Right → Count) (notify : Option PortId)
    (r : KernReturn × State × Option PortId) : Prop :=
  Books P r.2.1 (owed - (if r.1 = .success then tally (sonces notify) else 0) + tally (sonces r.2.2)) ∧
    ∀ r' ∈ sonces r.2.2, r'.port ∈ P

theorem dnrequestBooks_failed {r : KernReturn} (hr : r ≠ .success) :
    DnrequestBooks P owed notify (r, s, none) := by
  refine Books.owes ?_
  show Books P s (owed - (if r = .success then _ else _))
  rwa [if_neg hr, sub_zero]

theorem Books.dnrequest (hinv : Inv full none none s naked pend) (hpend : pend k = none)
    (immediate : Bool) (hnotify : Known P (sonces notify)) :
    DnrequestBooks P owed notify (ipcRightDnrequest s k immediate notify) := by
  have hdead := fun s' (hb : Books P s' owed) => dnrequestDead_cases (k := k)
    (Q := DnrequestBooks P owed notify) immediate notify (fun _ => dnrequestBooks_failed hb) fun q hq => by
      cases hq
      exact ((hb.setUrefs k _).notify (n := .deadName q k.2) hnotify).owes
  unfold ipcRightDnrequest
  simp only
  split
  · split
    · exact dnrequestBooks_failed h nofun
    next p hport =>
      have hk := Entry.object_of_port hport
      have hp : p ∈ P := h.ports ▸ hinv.object k p hk
      refine h.afterCheck hinv hk hpend (fun s' hb _ _ => hdead s' hb) fun ha => ?_
      obtain ⟨hd, hknown⟩ := h.dncancel hp ha k
      cases notify with
      | none =>
        refine ⟨?_, hknown⟩
        show Books P _ (owed - tally 0 + tally (sonces (ipcRightDncancel s p k).2))
        rwa [tally_zero, sub_zero]
      | some q =>
        simp only
        split
        · refine ⟨?_, hknown⟩
          show Books P _ (owed - 0 + tally (sonces (ipcRightDncancel s p k).2))
          rwa [sub_zero]
        next x r hx =>
          refine ⟨?_, hknown⟩
          have hq : q ∈ P := hnotify (.sendOnce q) (Multiset.mem_singleton_self _)
          show Books P _ (owed - tally {.sendOnce q} + tally (sonces (ipcRightDncancel s p k).2))
          rw [sub_add_eq_add_sub]
          exact hd.newRequest hp hq ((samePort_dncancel p).active.trans ha) hx
  · exact hdead s h

theorem Books.dngrow (p : PortId) (n : Nat) :
    Books P (s.setPort p (ipcPortDngrow (s.port p) n)) owed := by
  refine h.setTable ?_
  simp [Port.dnRights, elim_some, map_append, sum_append, growSlots_rights]
  cases (s.port p).dnrequests <;> rfl

theorem Books.replace {old new : Option PortId} (hp : p ∈ P)
    (hactive : x.active = (s.port p).active) (hsend : x.srights = (s.port p).srights)
    (hsonce : x.sorights = (s.port p).sorights)
    (hreg : x.registered + sonces old = (s.port p).registered + sonces new)
    (hnew : Known P (sonces new)) (hold : sonces old ≤ (s.port p).registered) :
    Owes P (s.setPort p x) (owed - tally (sonces new)) (sonces old) := by
  have htally : tally x.registered + tally (sonces old) =
      tally (s.port p).registered + tally (sonces new) := by rw [← tally_add, hreg, tally_add]
  have hset := h.setRequests hp hactive hsend hsonce
    (known_add.mp (hreg ▸ known_add.mpr ⟨h.registered p, hnew⟩)).1
  refine ⟨hset.congr fun r _ => ?_, fun r hr => h.registered p r (mem_of_le hold hr)⟩
  have hr : tally x.registered r + tally (sonces old) r =
      tally (s.port p).registered r + tally (sonces new) r := congrFun htally r
  show owed r - tally (sonces new) r + tally (sonces old) r =
    owed r + tally (s.port p).registered r - tally x.registered r
  rw [← sub_eq_zero] at hr ⊢
  rw [← hr]
  ring

theorem Books.nsrequest (hp : p ∈ P) (ha : (s.port p).active) (sync : Count)
    (hnotify : Known P (sonces notify)) :
    Owes P (ipcPortNsrequest s p sync notify).1 (owed - tally (sonces notify))
      (sonces (ipcPortNsrequest s p sync notify).2) := by
  have hold : sonces (s.port p).nsrequest ≤ (s.port p).registered := by
    rw [registered_of_active ha, add_assoc]
    exact le_add_right _ _
  have hset := fun n hn => h.replace (x := { s.port p with nsrequest := n }) hp rfl rfl rfl
    (registered_nsrequest ha n) hn hold
  unfold ipcPortNsrequest
  cases notify with
  | none => exact hset none hnotify
  | some q =>
    simp only
    split
    · obtain ⟨hnone, hknown⟩ := hset none nofun
      refine ⟨?_, hknown⟩
      have hnote := hnone.notify (n := .noSenders q (s.port p).mscount) hnotify
      refine hnote.congr fun r _ => ?_
      show owed r - tally {.sendOnce q} r + _ = owed r - tally 0 r + _ - tally {.sendOnce q} r
      show _ = owed r - 0 + _ - _
      ring
    · exact hset (some q) hnotify

theorem Books.pdrequest (hp : p ∈ P) (ha : (s.port p).active) (hnotify : Known P (sonces notify)) :
    Owes P (ipcPortPdrequest s p notify).1 (owed - tally (sonces notify))
      (sonces (ipcPortPdrequest s p notify).2) := by
  refine h.replace hp rfl rfl rfl (registered_pdrequest ha notify) hnotify ?_
  rw [registered_of_active ha, add_right_comm]
  exact le_add_left _ _

theorem Books.lookupNotify (sp : SpaceId) (name : Name)
    (hknown : ∀ p, (s.entry (sp, name)).object = some (.port p) → p ∈ P) :
    Owes P (ipcPortLookupNotify s sp name).1 owed (sonces (ipcPortLookupNotify s sp name).2) := by
  unfold ipcPortLookupNotify ipcEntryLookup
  by_cases ht : (s.entry (sp, name)).bits.type = .none
  · rw [if_pos ht]
    exact h.owes
  · rw [if_neg ht]
    simp only
    split
    next q hr hq =>
      exact ⟨h.makeSonce q, known_singleton (hknown q (Entry.object_of_port hq))⟩
    · exact h.owes

theorem Books.marequestCreate (hinv : Inv full none none s naked pend) (i : Nat) (sp : SpaceId)
    (p : PortId) (notify : Name) :
    Owes P (ipcMarequestCreate s i sp p notify).1 owed
      (sonces (ipcMarequestCreate s i sp p notify).2) := by
  obtain ⟨hlookup, hknown⟩ := h.lookupNotify sp notify fun q hq => h.ports ▸ hinv.object _ q hq
  have hentry := (hinv.lookupNotify sp notify).2
  unfold ipcMarequestCreate
  split
  · exact h.owes
  split
  next name hname =>
    simp only
    split
    · exact h.owes
    · split
      next s' heq =>
        rw [heq] at hlookup hknown
        exact ⟨hlookup, hknown⟩
      next s' q heq =>
        rw [heq] at hlookup hknown hentry
        refine ⟨(hlookup.setSame ?_).of_eq rfl, hknown⟩
        rw [hentry]
        rfl
  · split
    next s' heq =>
      rw [heq] at hlookup hknown
      exact ⟨hlookup, hknown⟩
    next s' q heq =>
      rw [heq] at hlookup hknown
      exact ⟨hlookup.of_eq rfl, hknown⟩

theorem Books.marequestDestroy (i : Nat) (hi : (s.marequest i).soright ∈ P) :
    Books P (ipcMarequestDestroy s i) (owed - tally {.sendOnce (s.marequest i).soright}) := by
  refine Books.notify ?_ (known_singleton hi)
  split
  · exact h
  have htable : Books P (s.unlinkMarequest (s.marequest i).space (s.marequest i).name) owed := by
    unfold State.unlinkMarequest
    split
    · exact h
    · exact h.of_eq rfl
  simp only
  split
  · exact htable
  · split
    · exact htable
    · exact htable.setSame rfl

/-! ## Ports -/

theorem Books.addPort (hinv : Inv full none none s naked pend) (hp : p ∉ P)
    (howed : ∀ r, r.port ∉ P → owed r = 0) (n : Name) (data : PortData) :
    Books (insert p P) (s.addPort p (newPort n data)) owed where
  ports := by rw [← h.ports]; rfl
  finite := h.finite
  noted r hr := mem_insert_of_mem (h.noted r hr)
  registered q r hr := by
    by_cases hq : q = p
    · subst hq
      rw [addPort_self] at hr
      cases hr
    · rw [show (s.addPort p (newPort n data)).port q = s.port q from update_of_ne hq ..] at hr
      exact mem_insert_of_mem (h.registered q r hr)
  balance r hr := by
    have hsame : ∀ q ≠ p, (s.addPort p (newPort n data)).port q = s.port q :=
      fun q hq => update_of_ne hq ..
    have hreg : (s.addPort p (newPort n data)).registered = s.registered := by
      show ∑ q ∈ insert p s.ports, _ = _
      rw [sum_insert (h.ports ▸ hp), addPort_self]
      refine (zero_add _).trans (sum_congr rfl fun q hq => ?_)
      rw [hsame q fun heq => hp (h.ports ▸ heq ▸ hq)]
    rw [hreg]
    show _ = ((s.entriesWith r).ncard : Count) + tally s.noted r + tally s.registered r + owed r
    by_cases hrp : r.port = p
    · -- nothing refers to the port
      have hunknown : r.port ∉ P := hrp ▸ hp
      have hentries : s.entriesWith r = ∅ := by
        refine Set.eq_empty_of_forall_notMem fun k hk => ?_
        have hk : r ∈ (s.entry k).rights := hk
        generalize he : (s.entry k).object = object
        match object with
        | none | some (.pset i) => simp [Entry.rights, he] at hk
        | some (.port q) =>
          rw [Entry.port_of_mem_rights he hk] at hunknown
          exact hunknown (h.ports ▸ hinv.object k q he)
      have hnoted : tally s.noted r = 0 := by
        rw [tally, count_eq_zero_of_notMem fun hr => hunknown (h.noted r hr)]
        rfl
      have hregistered : tally s.registered r = 0 := by
        rw [tally, count_eq_zero_of_notMem]
        · rfl
        intro hr
        obtain ⟨q, -, hq⟩ := mem_sum.mp hr
        exact hunknown (h.registered q r hq)
      rw [hentries, hnoted, hregistered, howed r hunknown, Set.ncard_empty, hrp, addPort_self]
      cases r <;> rfl
    · rw [hsame _ hrp]
      refine h.balance r ⟨?_, hr.2⟩
      have := hr.1
      rwa [hsame _ hrp] at this

theorem Books.releaseSend (hp : p ∈ P) :
    Books P (ipcPortReleaseSend s p) (owed - tally {.send p}) := by
  unfold ipcPortReleaseSend
  simp only
  split
  next ha => exact ((h.release p).dropSright hp ha).notifyIf
  next ha =>
    refine (h.release p).congr fun r hr => ?_
    have hne : r ≠ .send p := by
      rintro rfl
      exact ha hr.1
    rw [Pi.sub_apply, tally_singleton, if_neg hne, sub_zero]

theorem Books.releaseReceive (hp : p ∈ P) (ha : (s.port p).active) (circular : Bool) :
    Books P (ipcPortReleaseReceive s p circular) owed :=
  (h.destroy hp ha circular).releaseIf _

theorem Books.takeNotification {n : Notification} (hn : n ∈ s.notifications) :
    Owes P { s with notifications := s.notifications.erase n } owed n.rights := by
  have hnoted := noted_erase hn
  obtain ⟨hknown, hrest⟩ := known_add.mp (hnoted ▸ h.noted)
  refine ⟨⟨h.ports, h.finite, hrest, h.registered, fun r hr => ?_⟩, hknown⟩
  have hbalance := h.balance r hr
  rw [← hnoted, tally_add] at hbalance
  refine hbalance.trans ?_
  show ((s.entriesWith r).ncard : Count) + (tally n.rights r + tally _ r) + tally s.registered r + owed r =
    ((s.entriesWith r).ncard : Count) + tally _ r + tally s.registered r + (owed r + tally n.rights r)
  ring

end

end

/-! ## The system -/

def Sys.Books (S : Sys) : Prop :=
  Rights.Books S.st.ports S.st (tally S.held) ∧ ∀ r ∈ S.held, r.port ∈ S.st.ports

/-- The step does not strand a send right: it does not take the receive right from an entry
with a send right to a port that lives on. -/
def notStranding (S : Sys) : Action → Prop
  | .delta k right delta circular => right = .receive → delta = -1 →
    ∀ p, (S.st.entry k).receives p → (S.st.entry k).bits.send →
      (S.st.port p).pdrequest = none ∨ circular
  | _ => True

section

variable {full : Prop} {S S' : Sys} {P : Finset PortId} {s : State} {held : Multiset Right}

theorem Sys.Books.of {pend : Key → Option Pending} {accepted : Finset Nat}
    (h : Rights.Books P s (tally held)) (hheld : Known P held) :
    Sys.Books ⟨s, held, pend, accepted⟩ := by
  obtain rfl := h.ports
  exact ⟨h, hheld⟩

theorem Sys.Books.keep (h : S.Books) (hs : Rights.Books S.st.ports s (tally S.held)) :
    (S.withSt s).Books :=
  .of hs h.2

theorem Known.mono {m : Multiset Right} (h : Known P held) (hm : m ≤ held) : Known P m :=
  fun r hr => h r (mem_of_le hm hr)

variable {right : Right} {k : Key}

theorem tally_erase (h : right ∈ held) : tally (held.erase right) = tally held - tally {right} := by
  rw [← Multiset.sub_singleton, tally_sub (singleton_le.mpr h)]

theorem tally_cons (right : Right) : tally (right ::ₘ held) = tally held + tally {right} := by
  rw [← singleton_add, tally_add, add_comm]

theorem tally_unknown (h : Known P held) (r : Right) (hr : r.port ∉ P) : tally held r = 0 := by
  rw [tally, count_eq_zero_of_notMem (mt (h r) hr)]
  rfl

variable {pend : Key → Option Pending} {accepted : Finset Nat} {m m' : Multiset Right}

theorem Sys.Books.gain (h : Rights.Books P s (tally held + tally {right})) (hright : right.port ∈ P)
    (hheld : Known P held) : Sys.Books ⟨s, right ::ₘ held, pend, accepted⟩ := by
  refine .of ?_ (known_add.mpr ⟨known_singleton hright, hheld⟩)
  rwa [tally_cons]

theorem Sys.Books.spend (h : Rights.Books P s (tally held - tally {right})) (hright : right ∈ held)
    (hheld : Known P held) : Sys.Books ⟨s, held.erase right, pend, accepted⟩ := by
  refine .of ?_ (hheld.mono (erase_le _ _))
  rwa [tally_erase hright]

theorem Sys.Books.receive (h : Owes P s (tally held) m) (hheld : Known P held) :
    Sys.Books ⟨s, held + m, pend, accepted⟩ := by
  refine .of ?_ (known_add.mpr ⟨hheld, h.2⟩)
  rw [tally_add]
  exact h.1

theorem Sys.Books.exchange
    (h : Owes P s (tally held - tally m) m') (hm : m ≤ held) (hheld : Known P held) :
    Sys.Books ⟨s, held - m + m', pend, accepted⟩ := by
  refine .of ?_ (known_add.mpr ⟨hheld.mono (Multiset.sub_le_self _ _), h.2⟩)
  rw [tally_add, tally_sub hm]
  exact h.1

theorem Sys.Books.copied {msgt : Option Disposition} {rights : PortId → Multiset Right}
    {r : State × Option Copied} (hheld : Known P S.held)
    (h : CopyinBooks P (tally S.held) rights r) : (S.copied k msgt rights r).Books := by
  obtain ⟨hbooks, hknown⟩ := h
  unfold Sys.copied
  split
  next hr =>
    rw [hr] at hbooks
    refine .of ?_ hheld
    rwa [elim_none, tally_zero, add_zero] at hbooks
  next c hr =>
    rw [hr] at hbooks hknown
    refine .of ?_ (known_add.mpr ⟨hheld, hknown⟩)
    rwa [← tally_add] at hbooks

theorem Sys.Books.copiedOut {r : KernReturn × State} (hheld : Known P S.held)
    (hright : right ∈ S.held) (h : CopyoutBooks P (tally S.held) right r) :
    Sys.Books { S with
      st := r.2, held := if r.1 = .success then S.held.erase right else S.held } := by
  unfold CopyoutBooks at h
  by_cases hr : r.1 = .success
  · rw [if_pos hr] at h ⊢
    exact .spend h hright hheld
  · rw [if_neg hr] at h ⊢
    exact .of h hheld

section

variable (h : S.Books) (hinv : S.Inv full)
include h hinv

theorem Sys.Books.finish (hstep : step S (.finish k) = some S') : S'.Books := by
  simp only [Rights.step] at hstep
  split at hstep
  · cases hstep
  rename_i m hm
  obtain ⟨hle, rfl⟩ := of_ite_some hstep
  refine .of ?_ (Known.mono h.2 (Multiset.sub_le_self _ _))
  rw [tally_sub hle]
  refine Rights.Books.notifySonces ?_ _ (Known.mono h.2 hle) fun _ => rfl
  split
  next ht => exact h.1.freeVacant (hinv.ok k) ht
  · exact h.1

theorem Sys.Books.undo (hstep : step S (.undo k) = some S') : S'.Books := by
  simp only [Rights.step] at hstep
  split at hstep
  · cases hstep
  rename_i m hm
  split at hstep
  · cases hstep
  rename_i msgt hmsgt
  obtain ⟨hle, rfl⟩ := of_ite_some hstep
  obtain ⟨heq, -, hdead⟩ := Pending.undoable_some hmsgt
  have hpending := hinv.pending k m hm
  rw [show m = ⟨some msgt, m.copied⟩ by rw [← heq]] at hpending
  have hknown : Known _ (sonces m.copied.soright) := (known_add.mp (Known.mono h.2 hle)).2
  -- the port of the copied right is dead, so the right is not counted
  have hbooks : Rights.Books S.st.ports S.st
      (tally S.held - tally m.rights + tally (sonces m.copied.soright)) := by
    refine h.1.congr fun r hr => ?_
    have huncounted : tally m.rights r = tally (sonces m.copied.soright) r := by
      rw [Pending.rights, tally_add, Pi.add_apply, heq]
      cases hobject : m.copied.object with
      | none => rw [tally_zero, Pi.zero_apply, zero_add]
      | some p =>
        have hne : r.port ≠ (msgt.right p).port := by
          rw [show (msgt.right p).port = p by cases msgt <;> rfl]
          exact fun heq => hdead p hobject (heq ▸ hr.1)
        rw [tally_singleton_ne hne, zero_add]
    rw [Pi.add_apply, Pi.sub_apply, huncounted, sub_add_cancel]
  have hnote := (hbooks.undo (hinv.ok k) hpending).notifySonces (.deadName · k.2) hknown
    fun _ => rfl
  rw [add_sub_cancel_right, ← tally_sub hle] at hnote
  exact .of hnote (Known.mono h.2 (Multiset.sub_le_self _ _))

theorem Sys.Books.dropped {n : Notification} {circular : Bool}
    (hstep : step S (.dropped n circular) = some S') : S'.Books := by
  obtain ⟨hn, rfl⟩ := of_ite_some hstep
  obtain ⟨htake, hknown⟩ := h.1.takeNotification hn
  have hrelease := htake.releaseSonce n.soright
  have hplain : n.rights = {.sendOnce n.soright} → (S.withSt (ipcPortReleaseSonce
      { S.st with notifications := S.st.notifications.erase n } n.soright)).Books := by
    intro hn
    rw [hn, add_sub_cancel_right] at hrelease
    exact h.keep hrelease
  cases n with
  | portDestroyed q p =>
    have hmem : Right.receive p ∈ (Notification.portDestroyed q p).rights := by
      simp [Notification.rights]
    have hactive : (S.st.port p).active := by
      refine (hinv.naked p ?_).2.2.1
      have hnoted : Right.receive p ∈ S.st.noted := by
        rw [← noted_erase hn]
        exact mem_add.mpr (.inl hmem)
      have hcount := count_pos.mpr hnoted
      show _ + S.st.noted.count (.receive p) ≠ 0
      omega
    have hsame : SamePort ((ipcPortReleaseSonce { S.st with
        notifications := S.st.notifications.erase (.portDestroyed q p) } q).port p) (S.st.port p) :=
      samePort_setPort _ q _ (by exact ⟨rfl, rfl, rfl, rfl⟩) p
    have hdone := hrelease.releaseReceive (hknown _ hmem) (hsame.active.trans hactive) circular
    have howed : tally (Notification.portDestroyed q p).rights = tally {.sendOnce q} + tally {.receive p} :=
      tally_add {.sendOnce q} {.receive p}
    rw [howed] at hdone
    refine h.keep ((hdone.lessReceive p).congr fun r _ => ?_)
    show tally S.held r = tally S.held r + (tally {.sendOnce q} r + tally {.receive p} r) -
      tally {.sendOnce q} r - tally {.receive p} r
    ring
  | portDeleted | msgAccepted | noSenders | sendOnce | deadName => exact hplain rfl

theorem Sys.Books.step {a : Action} (hok : notStranding S a) (hstep : step S a = some S') :
    S'.Books := by
  have hheld : Known S.st.ports S.held := h.2
  have hbooks := h.1
  cases a with
  | copyin k msgt deadok nomem =>
    obtain ⟨⟨-, -, hp⟩, rfl⟩ := of_ite_some hstep
    exact .copied hheld (hbooks.copyin hinv hp msgt deadok nomem)
  | copyinTwo k =>
    obtain ⟨⟨-, -, hp⟩, rfl⟩ := of_ite_some hstep
    exact .copied hheld (hbooks.copyinTwo hinv hp)
  | finish k => exact h.finish hinv hstep
  | undo k => exact h.undo hinv hstep
  | copyout sp p msgt overflow nomem fresh =>
    obtain ⟨⟨hright, -, hfresh⟩, rfl⟩ := of_ite_some hstep
    exact .copiedOut hheld hright (hbooks.copyout hinv sp msgt overflow nomem fresh
      fun name hn => (hfresh name hn).1)
  | copyoutName sp p msgt overflow nomem fresh name =>
    obtain ⟨⟨hright, -, -⟩, rfl⟩ := of_ite_some hstep
    exact .copiedOut hheld hright (hbooks.copyoutName hinv sp msgt overflow nomem fresh name)
  | dealloc k =>
    obtain ⟨⟨-, -, hp⟩, rfl⟩ := of_ite_some hstep
    exact h.keep (hbooks.drops hinv hp hinv.dealloc_drops)
  | delta k right delta circular =>
    obtain ⟨⟨-, -, hp⟩, rfl⟩ := of_ite_some hstep
    exact h.keep (hbooks.delta hinv hp hok)
  | destroy k circular =>
    obtain ⟨⟨-, -, hp⟩, rfl⟩ := of_ite_some hstep
    exact h.keep (hbooks.destroyRight hinv circular)
  | clean k circular =>
    obtain ⟨⟨hs, -, hp⟩, rfl⟩ := of_ite_some hstep
    exact h.keep (hbooks.clean hinv circular)
  | check k =>
    simp only [Rights.step] at hstep
    split at hstep
    next p hrights hport =>
      obtain ⟨-, rfl⟩ := of_ite_some hstep
      exact h.keep (hbooks.check (Entry.object_of_port hport))
    · cases hstep
  | rename k nname nomem =>
    obtain ⟨⟨⟨-, hk, hp⟩, hk', hp', -⟩, rfl⟩ := of_ite_some hstep
    refine h.keep (hbooks.rename hinv hp (fun heq => hk ?_) hk' nomem)
    rw [← heq]
    exact hk'
  | dnrequest k immediate notify =>
    obtain ⟨⟨⟨-, -, hp⟩, hnotify⟩, rfl⟩ := of_ite_some hstep
    have hdn := hbooks.dnrequest hinv hp immediate (hheld.mono hnotify)
    unfold DnrequestBooks at hdn
    by_cases hr : (ipcRightDnrequest S.st k immediate notify).1 = .success
    · rw [if_pos hr] at hdn ⊢
      exact .exchange hdn hnotify hheld
    · rw [if_neg hr] at hdn
      rw [if_neg hr, ← tsub_zero S.held]
      exact .exchange hdn (zero_le _) hheld
  | dngrow p n =>
    obtain ⟨-, rfl⟩ := of_ite_some hstep
    exact h.keep (hbooks.dngrow p n)
  | makeSend p =>
    obtain ⟨ha, rfl⟩ := of_ite_some hstep
    exact .gain (hbooks.makeSend p) (hinv.known p ha) hheld
  | copySend p =>
    obtain ⟨hright, rfl⟩ := of_ite_some hstep
    simp only [ipcPortCopySend]
    split
    · rw [elim_some]
      exact .gain (hbooks.copySright p) (hheld _ hright) hheld
    · rw [elim_none, zero_add]
      exact .of hbooks hheld
  | releaseSend p =>
    obtain ⟨hright, rfl⟩ := of_ite_some hstep
    exact .spend (hbooks.releaseSend (hheld _ hright)) hright hheld
  | makeSonce p =>
    obtain ⟨ha, rfl⟩ := of_ite_some hstep
    exact .gain (hbooks.makeSonce p) (hinv.known p ha) hheld
  | releaseSonce p =>
    obtain ⟨hright, rfl⟩ := of_ite_some hstep
    exact .spend (hbooks.releaseSonce p) hright hheld
  | releaseReceive p circular =>
    obtain ⟨hright, rfl⟩ := of_ite_some hstep
    have ha := (hinv.grab (count_ne_zero.mpr hright)).1
    exact .spend ((hbooks.releaseReceive (hheld _ hright) ha circular).lessReceive p) hright hheld
  | nsrequest p sync notify =>
    obtain ⟨⟨ha, hnotify⟩, rfl⟩ := of_ite_some hstep
    exact .exchange (hbooks.nsrequest (hinv.known p ha) ha sync (hheld.mono hnotify)) hnotify hheld
  | pdrequest p notify =>
    obtain ⟨⟨ha, hnotify⟩, rfl⟩ := of_ite_some hstep
    exact .exchange (hbooks.pdrequest (hinv.known p ha) ha (hheld.mono hnotify)) hnotify hheld
  | marequestCreate i sp p notify =>
    obtain ⟨-, rfl⟩ := of_ite_some hstep
    exact .receive (hbooks.marequestCreate hinv i sp p notify) hheld
  | marequestDestroy i =>
    obtain ⟨⟨-, hright, -⟩, rfl⟩ := of_ite_some hstep
    exact .spend (hbooks.marequestDestroy i (hheld _ hright)) hright hheld
  | portAlloc p k =>
    obtain ⟨⟨hp, -, hk, -⟩, rfl⟩ := of_ite_some hstep
    have hadd := hbooks.addPort hinv hp (tally_unknown hheld) k.2 (.receiver k.1)
    refine .of (hadd.setSame ?_) fun r hr => mem_insert_of_mem (hheld r hr)
    exact (rights_of_none (hinv.ok k) hk).symm
  | portAllocSpecial p sp =>
    obtain ⟨hp, rfl⟩ := of_ite_some hstep
    exact .of (hbooks.addPort hinv hp (tally_unknown hheld) p (.special sp))
      fun r hr => mem_insert_of_mem (hheld r hr)
  | portDeallocSpecial p circular =>
    simp only [Rights.step] at hstep
    split at hstep
    next sp hactive hdata =>
      cases hstep
      refine h.keep (((hbooks.limbo p).clearReceiver p).destroy (hinv.known p hactive) ?_ circular)
      refine (samePort_clearReceiver p).active.trans ?_
      rw [State.limbo, setPort_self]
      exact hactive
    · cases hstep
  | kernelMoveReceive p =>
    simp only [Rights.step] at hstep
    split at hstep
    next hactive hdata =>
      cases hstep
      have hset : Rights.Books S.st.ports (S.st.setPort p { S.st.port p with mscount := 0 }) (tally S.held) :=
        hbooks.setOther rfl rfl rfl
      exact .gain ((hset.limbo p).moreReceive p) (hinv.known p hactive) hheld
    · cases hstep
  | transit p dest =>
    obtain ⟨-, rfl⟩ := of_ite_some hstep
    exact h.keep (hbooks.transit p dest)
  | psetAlloc i k =>
    obtain ⟨⟨-, hk, -⟩, rfl⟩ := of_ite_some hstep
    have hset : Rights.Books S.st.ports (S.st.setPset i ⟨true, 1, k.2⟩) (tally S.held) :=
      hbooks.of_eq rfl
    exact h.keep (hset.setSame (rights_of_none (hinv.ok k) hk).symm)
  | allocDead k =>
    obtain ⟨⟨-, hk, -⟩, rfl⟩ := of_ite_some hstep
    exact h.keep (hbooks.setSame (rights_of_none (hinv.ok k) hk).symm)
  | spaceDestroy sp =>
    cases hstep
    exact h.keep (hbooks.of_eq rfl)
  | sent n =>
    obtain ⟨hn, rfl⟩ := of_ite_some hstep
    exact .receive (hbooks.takeNotification hn) hheld
  | dropped n circular => exact h.dropped hinv hstep

end

theorem Sys.Books.init (h : Rights.init S) : S.Books := by
  have hports := h.ports
  have hentry : ∀ r, S.st.entriesWith r = ∅ := fun r =>
    Set.eq_empty_of_forall_notMem fun k (hk : r ∈ (S.st.entry k).rights) => by
      rw [h.entries k] at hk
      cases hk
  refine ⟨⟨rfl, fun r => ?_, fun r hr => ?_, fun p r hr => ?_, fun r hr => ?_⟩, fun r hr => ?_⟩
  · rw [hentry r]
    exact Set.finite_empty
  · rw [State.noted, h.notifications] at hr
    cases hr
  · rw [Port.registered, h.dead p] at hr
    cases hr
  · have := hr.1
    rw [h.dead] at this
    cases this
  · rw [h.held] at hr
    cases hr

theorem Sys.Books.reach (h : lts.Reach notStranding S) : S.Books := by
  have hboth : S.Books ∧ S.Inv False := by
    refine h.inv (I := fun S => S.Books ∧ S.Inv False) (fun _ h0 => ⟨.init h0, .init h0⟩) ?_
    rintro S a S' ⟨hbooks, hinv⟩ ha hstep
    exact ⟨hbooks.step hinv ha hstep, hinv.step nofun hstep⟩
  exact hboth.1

end

def State.sendEntries (s : State) (p : PortId) : Set Key :=
  {k | (s.entry k).bits.send ∧ (s.entry k).object = some (.port p)}

def State.sendOnceEntries (s : State) (p : PortId) : Set Key :=
  {k | (s.entry k).bits.sendOnce ∧ (s.entry k).object = some (.port p)}

/-- The naked rights: those in messages and with kernel callers, in notifications, and
registered for notifications. -/
def Sys.naked (S : Sys) : Multiset Right := S.held + S.st.noted + S.st.registered

/-- The counters of the live ports are right. -/
structure Sys.RightsCounted (S : Sys) : Prop where
  send : ∀ p, (S.st.port p).active → (S.st.sendEntries p).Finite ∧
    (S.st.port p).srights = (((S.st.sendEntries p).ncard + S.naked.count (.send p) : Nat) : Count)
  sendOnce : ∀ p, (S.st.port p).active → (S.st.sendOnceEntries p).Finite ∧
    (S.st.port p).sorights =
      (((S.st.sendOnceEntries p).ncard + S.naked.count (.sendOnce p) : Nat) : Count)

theorem mem_rights {e : Entry} {p : PortId} :
    (.send p ∈ e.rights ↔ e.bits.send ∧ e.object = some (.port p)) ∧
      (.sendOnce p ∈ e.rights ↔ e.bits.sendOnce ∧ e.object = some (.port p)) := by
  unfold Entry.rights
  split
  next q hq =>
    rw [hq]
    cases e.bits.send <;> cases e.bits.sendOnce <;> simp [eq_comm]
  next hne =>
    have hnot : e.object ≠ some (.port p) := hne p
    simp [hnot]

theorem Sys.Books.counted {S : Sys} (h : S.Books) {r : Right} (hr : S.st.counts r) :
    (S.st.port r.port).counter r = (((S.st.entriesWith r).ncard + S.naked.count r : Nat) : Count) := by
  rw [h.1.balance r hr, Sys.naked, count_add, count_add, Nat.cast_add, Nat.cast_add, Nat.cast_add]
  simp only [tally]
  ring

theorem Sys.Books.rightsCounted {S : Sys} (h : S.Books) : S.RightsCounted where
  send p ha := by
    have hset : S.st.sendEntries p = S.st.entriesWith (.send p) :=
      Set.ext fun k => mem_rights.1.symm
    rw [hset]
    exact ⟨h.1.finite _, h.counted (r := .send p) ⟨ha, nofun⟩⟩
  sendOnce p ha := by
    have hset : S.st.sendOnceEntries p = S.st.entriesWith (.sendOnce p) :=
      Set.ext fun k => mem_rights.2.symm
    rw [hset]
    exact ⟨h.1.finite _, h.counted (r := .sendOnce p) ⟨ha, nofun⟩⟩

/-- **The counters are right** in every state of every run that strands no send right. -/
theorem rightsCounted_of_notStranding (S : Sys) (h : lts.Reach notStranding S) : S.RightsCounted :=
  (Sys.Books.reach h).rightsCounted

def backedUp : List Action :=
  [.portAlloc 1 (0, 5), .makeSend 1, .copyout 0 1 .portSend false false none,
    .portAllocSpecial 2 .kernel, .makeSonce 2, .pdrequest 1 (some 2)]

theorem rightsCounted_backedUp :
    ∃ S, lts.run emptySys (backedUp ++ [.destroy (0, 5) false]) = some S ∧ (S.st.port 1).active ∧
      S.RightsCounted := by
  obtain ⟨S, hS⟩ := isSome_iff_exists.mp
    (show (lts.run emptySys (backedUp ++ [.destroy (0, 5) false])).isSome by decide)
  refine ⟨S, hS, by cases hS; rfl, rightsCounted_of_notStranding S (.run _ (.start init_emptySys) ?_ hS)⟩
  refine lts.okRun_of_forall _ _ fun a ha _ => ?_
  simp only [backedUp, cons_append, nil_append, List.mem_cons, not_mem_nil, or_false] at ha
  rcases ha with rfl | rfl | rfl | rfl | rfl | rfl | rfl <;> trivial

/-- `mach_port_mod_refs` with `MACH_PORT_RIGHT_RECEIVE` and -1 leaves a port that nobody has
a send right to, and whose count of them is 1. -/
theorem stranded_of_delta : ∃ S, lts.Reach Lib.anyStep S ∧ (S.st.port 1).active ∧
    (S.st.port 1).srights = 1 ∧ S.st.sendEntries 1 = ∅ ∧ S.naked.count (.send 1) = 0 ∧
    ¬ S.RightsCounted := by
  obtain ⟨S, hS⟩ := isSome_iff_exists.mp
    (show (lts.run emptySys (backedUp ++ [.delta (0, 5) .receive (-1) false])).isSome by decide)
  have hfields : (S.st.port 1).active ∧ (S.st.port 1).srights = 1 ∧ S.naked.count (.send 1) = 0 := by
    cases hS
    exact ⟨rfl, by decide, by decide⟩
  have hentries : S.st.sendEntries 1 = ∅ := by
    have hentry : ∃ e e' e'', S.st.entry = update (update (update
        (fun _ => .blank) (0, 5) e) (0, 5) e') (0, 5) e'' ∧ e''.bits.send = false := by
      cases hS
      exact ⟨_, _, _, rfl, rfl⟩
    obtain ⟨e, e', e'', hentry, he⟩ := hentry
    refine Set.eq_empty_of_forall_notMem fun k hk => ?_
    have hk := hk.1
    rw [hentry, update_idem, update_idem, update_apply] at hk
    split at hk
    · rw [he] at hk
      cases hk
    · cases hk
  obtain ⟨ha, hcount, hnaked⟩ := hfields
  refine ⟨S, .run _ (.start init_emptySys) (lts.okRun_any _ _) hS, ha, hcount, hentries, hnaked, fun h => ?_⟩
  have hsend := (h.send 1 ha).2
  rw [hcount, hentries, hnaked, Set.ncard_empty] at hsend
  exact absurd hsend (by decide)

end Mach.Ipc.Rights
