import Mach.Ipc.RightKeep

/-!
# Copying rights in and out keeps the invariant

The functions that move rights between a space and messages. A copyin leaves an entry
behind that its caller still has to free or to restore; that is recorded as pending.
-/

namespace Mach.Ipc.Rights

open Function Multiset State

section

variable {full : Prop} {hole : Option (Key × PortId)} {stray : Option PortId} {s : State}
  {naked : PortId → Nat} {pend : Key → Option Pending} {k : Key} {p : PortId}

theorem setEntry_setEntry (s : State) (k : Key) (e e' : Entry) :
    (s.setEntry k e).setEntry k e' = s.setEntry k e' := by
  simp only [State.setEntry, update_idem]

theorem Inv.fill (h : Inv full (some (k, p)) stray s naked pend)
    (hk : (s.space k.1).isActive → Mapped full s k (s.entry k)) :
    Inv full none stray s naked pend := by
  have hset := h.setEntry (k := k) (e := s.entry k) excused_only
    (.inr rfl) (h.ok k) (h.object k) (h.keepReceive fun _ => Iff.rfl) (fun _ => hk)
    (h.keepRequests (.inr ⟨rfl, rfl⟩)) (h.pending k)
  rwa [State.setEntry, update_eq_self] at hset

theorem Inv.setPending {m : Option Pending} (h : Inv full hole stray s naked pend)
    (hm : ∀ m', m = some m' → PendingOk (s.entry k) m') :
    Inv full hole stray s naked (update pend k m) :=
  { h with
    pending := (forall_update_iff pend fun k m =>
      ∀ m', m = some m' → PendingOk (s.entry k) m').mpr ⟨hm, fun k' _ => h.pending k'⟩ }

theorem Inv.endCopy (h : Inv full hole stray s naked pend) (k : Key) :
    Inv full hole stray s naked (update pend k none) :=
  h.setPending nofun

/-! ## Copyin -/

/-- What a copyin from the entry `k` leaves: the invariant with the receive right that is
naked now, if there is one, and an entry for the copier to finish. -/
def CopyinOk (full : Prop) (naked : PortId → Nat) (pend : Key → Option Pending) (k : Key)
    (msgt : Option Disposition) (rights : PortId → Multiset Right) (r : State × Option Copied) :
    Prop :=
  Inv full none none r.1 (fun q => naked q + (r.2.elim 0 (·.rights rights)).count (.receive q)) pend ∧
    ∀ c ∈ r.2, PendingOk (r.1.entry k) ⟨msgt, c⟩

variable {msgt : Option Disposition} {rights : PortId → Multiset Right}

theorem copyinOk_none (h : Inv full none none s naked pend) :
    CopyinOk full naked pend k msgt rights (s, none) :=
  ⟨h, nofun⟩

theorem count_sonces (q : Option PortId) (p : PortId) : (sonces q).count (.receive p) = 0 := by
  cases q <;> simp [sonces]

theorem copyinOk_some {c : Copied} (h : Inv full none none s naked pend)
    (hrights : ∀ p q, (rights p).count (.receive q) = 0) (hc : PendingOk (s.entry k) ⟨msgt, c⟩) :
    CopyinOk full naked pend k msgt rights (s, some c) := by
  refine ⟨h.congr (fun q => ?_) rfl, fun c' hc' => ?_⟩
  · have hcount : (c.rights rights).count (.receive q) = 0 := by
      rw [Copied.rights, count_add, count_sonces]
      cases c.object with
      | none => rfl
      | some p => exact hrights p q
    simp only [nakedReceives, Option.elim_some, hcount, Nat.add_zero]
  · cases hc'
    exact hc

variable {e : Entry} {sp : SpaceId} {r : KernReturn}

theorem pendingOk_gone {m : Pending} (h : e.bits.type = .none) : PendingOk e m :=
  ⟨fun _ => h, absurd h⟩

theorem pendingOk_dead {m : Pending} (h : e.bits.type = .deadName) (hm : m.copied.soright = none) :
    PendingOk e m :=
  ⟨fun hs => absurd hs (by rw [hm]; exact nofun), fun _ hne => absurd h hne⟩

theorem pendingOk_same (h : e.object = some (.port p)) : PendingOk e ⟨msgt, ⟨some p, none⟩⟩ :=
  ⟨nofun, fun _ _ => ⟨p, rfl, h⟩⟩

section

variable (h : Inv full none none s naked pend) (hk : (s.entry k).bits.type = .deadName)
include h hk

theorem Inv.copyDead
    (deadok : Bool) : CopyinOk full naked pend k msgt rights (copyDead s deadok) := by
  unfold Rights.copyDead
  split
  · refine ⟨h, fun c hc => ?_⟩
    cases hc
    exact pendingOk_dead hk rfl
  · exact copyinOk_none h

theorem Inv.moveDead (hp : pend k = none) (deadok : Bool) :
    CopyinOk full naked pend k msgt rights (moveDead s k deadok) := by
  have hok := h.ok k
  unfold Rights.moveDead
  generalize he : s.entry k = e at hok hk
  cases hok <;> first | (cases hk; done) | skip
  next u m =>
  cases deadok with
  | false => exact copyinOk_none h
  | true =>
    have hloose := h.loose (k := k) fun _ => by rw [he]; exact nofun
    simp only [if_true]
    refine ⟨?_, fun c hc => ?_⟩
    · split
      · exact hloose.setPlain (.none u m) (by simp) hp (by rw [he])
      · exact hloose.setPlain (.deadName (u - 1) m) nofun hp (by rw [he])
    · cases hc
      rw [setEntry_self]
      split
      · exact pendingOk_gone rfl
      · exact pendingOk_dead rfl rfl

end

theorem copyinSend_eq {dead : State → State × Option Copied} {live : PortId → State × Option PortId}
    {asks : Bool} {q : PortId} (hdead : (s.entry k).bits.deadName = false)
    (hsend : (s.entry k).bits.sendRights) (hq : (s.entry k).port = some q) :
    copyinSend s k asks dead live = match ipcRightCheck s q k with
      | (s, true) => dead s
      | (s, false) => if asks then ((live q).1, some ⟨some q, (live q).2⟩) else (s, none) := by
  unfold Rights.copyinSend
  dsimp only
  rewrite [hdead, hsend, hq]
  rfl

section

variable {Q : State × Option Copied → Prop} (hnone : Q (s, none))
include hnone

theorem copyinReceive_rule {f : PortId → State × Option PortId}
    (hf : ∀ q, (s.entry k).receives q → Q ((f q).1, some ⟨some q, (f q).2⟩)) : Q (copyinReceive s k f) := by
  unfold Rights.copyinReceive
  split
  next q hr hq => exact hf q ⟨hr, Entry.object_of_port hq⟩
  · exact hnone

theorem copyinSend_rule (I : State → Prop) {dead : State → State × Option Copied}
    {live : PortId → State × Option PortId} {asks : Bool} (hok : (s.entry k).Ok) (h : I s)
    (hcheck : ∀ q, (s.entry k).object = some (.port q) → I (ipcRightCheck s q k).1)
    (hdead : ∀ s', I s' → (s'.entry k).bits.type = .deadName → Q (dead s'))
    (hlive : ∀ q, (s.entry k).object = some (.port q) → (s.port q).active → asks →
      Q ((live q).1, some ⟨some q, (live q).2⟩)) : Q (copyinSend s k asks dead live) := by
  generalize he : s.entry k = e at hok
  cases hok with
  | none | portSet | receive =>
    unfold Rights.copyinSend
    rw [he]
    exact hnone
  | deadName u m =>
    unfold Rights.copyinSend
    rw [he]
    exact hdead s h (by rw [he]; rfl)
  | send u m q i | sendReceive u m q i | sendOnce u m q i =>
    have hq : (s.entry k).object = some (.port q) := by rw [he]
    rw [copyinSend_eq (by rw [he]) (by rw [he]; rfl) (by rw [he]; rfl)]
    refine ipcRightCheck_cases (hdead _ (hcheck q hq)) fun ha => ?_
    split
    next hasks => exact hlive q hq ha hasks
    · exact hnone

end

theorem setEntry_clear (s : State) (k : Key) (b : Bits) :
    (s.setEntry k { s.entry k with object := none }).setEntry k
        { (s.setEntry k { s.entry k with object := none }).entry k with bits := b } =
      s.setEntry k ⟨b, none, (s.entry k).request⟩ := by
  rw [setEntry_setEntry, setEntry_self]

variable {u i : Nat} {m : Bool}

theorem ipcReverseInsert_self {n : Name} (h : (s.space sp).isReverseMap p = none) :
    ((ipcReverseInsert s sp p n false).space sp).isReverseMap p = some n := by
  unfold ipcReverseInsert
  rw [h]
  exact (setReverse_space s sp sp p p (some n)).2.trans (if_pos ⟨rfl, rfl⟩)

theorem clearReceiver_fields :
    (ipcPortClearReceiver s p).entry = s.entry ∧ (ipcPortClearReceiver s p).space = s.space := by
  unfold ipcPortClearReceiver
  simp only
  split <;> exact ⟨rfl, rfl⟩

theorem copyinOk_receive {d : Option PortId} (h : Inv full none none s (update naked p 1) pend)
    (hzero : naked p = 0) (hc : PendingOk (s.entry k) ⟨msgt, ⟨some p, d⟩⟩) :
    CopyinOk full naked pend k msgt (fun q => {.receive q}) (s, some ⟨some p, d⟩) := by
  refine ⟨h.congr (fun q => ?_) rfl, fun c hc' => ?_⟩
  · simp only [nakedReceives, Option.elim_some, Copied.rights, count_add, count_sonces]
    by_cases hq : q = p
    · subst hq
      simp [hzero]
    · simp [hq]
  · cases hc'
    exact hc

theorem Inv.releaseIf (h : Inv full hole stray s naked pend) (q : Option PortId) :
    Inv full hole stray (match q with
      | some p => s.release p
      | none => s) naked pend := by
  cases q with
  | none => exact h
  | some p => exact h.release p

section

variable (h : Inv full none none s naked pend)
include h

theorem Inv.clearSend
    (he : s.entry k = ⟨⟨u, true, false, false, false, false, m⟩, some (.port p), i⟩)
    (hp : pend k = none) {f : State → State} (hentry : ∀ t, (f t).entry = t.entry)
    (hf : ∀ t, Loose full k t naked pend → Loose full k (f t) naked pend) {t : State}
    (ht : f (if m then ipcMarequestCancel (ipcReverseRemove (ipcRightDncancel s p k).1 k.1 p) k.1 k.2
      else ipcReverseRemove (ipcRightDncancel s p k).1 k.1 p) = t) :
    Inv full none none ((t.setEntry k { t.entry k with object := none }).setEntry k
      { (t.setEntry k { t.entry k with object := none }).entry k with
        bits := ⟨0, false, false, false, false, false, m⟩ }) naked pend := by
  obtain ⟨hd, hentryd⟩ := h.dncancel (k := k) (p := p) unexcused (by rw [he])
  have hloose := hf _ ((hd.looseRemove (k := k) (p := p)
    (by rw [hentryd, he]; exact ⟨rfl, rfl⟩)).cancelIf m k.1 k.2)
  have htk : t.entry k = ⟨⟨u, true, false, false, false, false, m⟩, some (.port p), 0⟩ := by
    rw [← ht, hentry, (cancelIf_fields _ _ _).1, ipcReverseRemove, setReverse_entry, hentryd, he]
  rw [ht] at hloose
  rw [setEntry_clear, htk]
  exact hloose.setPlain (.none 0 m) (by simp) hp (by rw [htk])

theorem Inv.clearSendOfReceive
    (he : s.entry k = ⟨⟨u, true, true, false, false, false, m⟩, some (.port p), i⟩)
    (hp : pend k = none) :
    Inv full none none (s.setEntry k { s.entry k with
      bits := ⟨0, false, true, false, false, false, m⟩ }) naked pend := by
  rw [he]
  refine h.setKept (.receive 0 m p i) ?_ ?_ ?_ nofun ?_ (not_pending hp _)
  all_goals rw [he]
  exact nofun

theorem Inv.moveSend (hk : (s.entry k).object = some (.port p)) (hsend : (s.entry k).bits.send)
    (hp : pend k = none) (hrights : ∀ p q, (rights p).count (.receive q) = 0) :
    CopyinOk full naked pend k msgt rights ((moveSend s p k).1, some ⟨some p, (moveSend s p k).2⟩) := by
  have hok := h.ok k
  have hcopy : CopyinOk full naked pend k msgt rights
      ((s.copySright p).setUrefs k ((s.entry k).bits.urefs - 1), some ⟨some p, none⟩) := by
    refine copyinOk_some ((h.copySright p).setUrefs k _) hrights (pendingOk_same ?_)
    rw [State.setUrefs, setEntry_self]
    exact hk
  unfold Rights.moveSend
  generalize he : s.entry k = e at hok hk hsend hcopy
  cases hok with
  | send u m q i =>
    cases hk
    simp only [Bool.false_eq_true, if_false]
    split
    · refine copyinOk_some (h.clearSend he hp (f := id) (fun _ => rfl) (fun _ ht => ht) rfl) hrights ?_
      rw [setEntry_self]
      exact pendingOk_gone rfl
    · exact hcopy
  | sendReceive u m q i =>
    cases hk
    simp only [if_true]
    split
    · refine copyinOk_some ((h.reference p).clearSendOfReceive he hp) hrights (pendingOk_same ?_)
      rw [setEntry_self]
      exact congrArg Entry.object he
    · exact hcopy
  | _ => cases hsend

theorem Inv.moveSendOnce (hk : (s.entry k).object = some (.port p))
    (hsend : (s.entry k).bits.sendOnce) (hp : pend k = none)
    (hrights : ∀ p q, (rights p).count (.receive q) = 0) :
    CopyinOk full naked pend k msgt rights
      ((moveSendOnce s p k).1, some ⟨some p, (moveSendOnce s p k).2⟩) := by
  have hok := h.ok k
  have hloose := fun ht => (h.loose (k := k) ht).dncancel hk
  simp only [Rights.moveSendOnce, dncancel_entry]
  generalize he : s.entry k = e at hok hk hsend hloose
  cases hok with
  | sendOnce u m q i =>
    refine copyinOk_some ((hloose fun _ => nofun).setPlain (.none u m) (by simp) hp ?_) hrights ?_
    · rw [dncancel_entry, he]
    · rw [setEntry_self]
      exact pendingOk_gone rfl
  | _ => cases hsend

theorem Inv.copyinTwo (hp : pend k = none) (hrights : ∀ p q, (rights p).count (.receive q) = 0) :
    CopyinOk full naked pend k msgt rights (ipcRightCopyinTwo s k) := by
  have hok := h.ok k
  unfold ipcRightCopyinTwo
  simp only
  split
  · exact copyinOk_none h
  next p hport =>
    have hk := Entry.object_of_port hport
    split
    · exact copyinOk_none h
    next hsend =>
      refine h.afterCheck hk hp (fun s' h' _ => copyinOk_none h') fun _ => ?_
      have hcopy : CopyinOk full naked pend k msgt rights
          (((s.copySright p).copySright p).setUrefs k ((s.entry k).bits.urefs - 2), some ⟨some p, none⟩) := by
        refine copyinOk_some (((h.copySright p).copySright p).setUrefs k _) hrights (pendingOk_same ?_)
        rw [State.setUrefs, setEntry_self]
        exact hk
      generalize he : s.entry k = e at hok hk hsend hcopy
      cases hok with
      | send u m q i =>
        cases hk
        simp only [Bool.false_eq_true, if_false]
        split
        · refine copyinOk_some (h.clearSend he hp (f := (State.copySright · p)) (fun _ => rfl)
            (fun _ ht => ht.map rfl fun _ _ ht => ht.copySright p) rfl) hrights ?_
          rw [setEntry_self]
          exact pendingOk_gone rfl
        · exact hcopy
      | sendReceive u m q i =>
        cases hk
        simp only [if_true]
        split
        · refine copyinOk_some (((h.copySright p).reference p).clearSendOfReceive he hp) hrights
            (pendingOk_same ?_)
          rw [setEntry_self]
          exact congrArg Entry.object he
        · exact hcopy
      | _ => exact absurd (.inl nofun) hsend

theorem Inv.keepSend (he : s.entry k = ⟨⟨u, true, true, false, false, false, m⟩, some (.port p), i⟩)
    (hp : pend k = none) {nomem : Bool} (hfull : full → nomem = false) {s' : State}
    (hs' : s' = ((ipcReverseInsert s k.1 p k.2 nomem).reference p).setEntry k
      ⟨⟨u, true, false, false, false, false, m⟩, some (.port p), i⟩) :
    Inv full none none ((ipcPortClearReceiver s' p).limbo p) (update naked p 1) pend := by
  have hreceives : (s.entry k).receives p := by rw [he]; exact ⟨rfl, rfl⟩
  obtain ⟨-, hactive, hdata, -⟩ := h.receives k p hreceives
  obtain ⟨hentry, hport, -⟩ := ipcReverseInsert_fields s k.1 p k.2 nomem
  have hnot : ∀ q, ¬ (s.entry k).sendTo q := fun q hq => by
    rw [he] at hq
    cases hq.1
  have hins := (h.reverseInsert (p := p) hnot nomem).reference p
  have hself : ((ipcReverseInsert s k.1 p k.2 nomem).reference p).entry k = s.entry k :=
    congrFun hentry k
  have hset := hins.setEntry (k := k)
    (e := ⟨⟨u, true, false, false, false, false, m⟩, some (.port p), i⟩)
    excused_only (.inl (Eq.refl (some (k, p)))) (.send u m p i)
    (fun q hq => hins.object k q (by rw [hself, he]; exact hq))
    (hins.loseReceive (hself ▸ hreceives) rfl) (fun hx => absurd ⟨p, rfl⟩ hx)
    (hins.keepRequests (.inr (by rw [hself, he]; exact ⟨rfl, rfl⟩))) (not_pending hp _)
  rw [← hs'] at hset
  obtain ⟨hce, hcs⟩ := clearReceiver_fields (p := p) (s := s')
  have hlimbo := (hset.clearReceiver p).limbo ((samePort_clearReceiver p).active.trans (by
    rw [hs']
    show (((ipcReverseInsert s k.1 p k.2 nomem).reference p).port p).active
    rw [State.reference, setPort_self, hport]
    exact hactive))
  refine hlimbo.fill fun hs => ?_
  -- the entry as it is now, and what the map says of it
  have hnow : ((ipcPortClearReceiver s' p).limbo p).entry k =
      ⟨⟨u, true, false, false, false, false, m⟩, some (.port p), i⟩ := by
    show (ipcPortClearReceiver s' p).entry k = _
    rw [hce, hs', setEntry_self]
  rw [hnow]
  refine ⟨fun q hq => ?_, fun hf q hq => ?_⟩
  · obtain rfl := hlimbo.only k p rfl hs q hq
    refine ⟨⟨rfl, rfl⟩, fun _ _ => ?_⟩
    rw [State.limbo, setPort_self]
    simp
  · cases hq.2
    show ((ipcPortClearReceiver _ p).space k.1).isReverseMap p = _
    rw [hcs, hs']
    obtain rfl := hfull hf
    refine ipcReverseInsert_self ?_
    have hspace : (s.space k.1).isActive := by
      rw [← (ipcReverseInsert_space s k.1 k.1 p p k.2 false).1]
      have hs1 : (s'.space k.1).isActive := hcs ▸ hs
      rw [hs'] at hs1
      exact hs1
    cases hmap : (s.space k.1).isReverseMap p with
    | none => rfl
    | some n => exact absurd hdata (h.merged hf k.1 p n hspace hmap (not_excused_none _) hactive)

theorem Inv.moveReceive (hk : (s.entry k).receives p) (hp : pend k = none) {nomem : Bool}
    (hfull : full → nomem = false) :
    CopyinOk full naked pend k msgt (fun q => {.receive q})
      ((moveReceive s p k nomem).1, some ⟨some p, (moveReceive s p k nomem).2⟩) := by
  obtain ⟨-, hactive, hdata, -⟩ := h.receives k p hk
  have hzero : naked p = 0 := by
    by_contra hne
    obtain ⟨-, -, -, dest, hdest⟩ := h.naked p (by rw [nakedReceives]; omega)
    rw [hdata] at hdest
    cases hdest
  have hok := h.ok k
  have hfree : ∀ t : State, ((ipcPortClearReceiver t p).limbo p).entry = t.entry :=
    fun t => clearReceiver_fields.1
  unfold Rights.moveReceive
  generalize he : s.entry k = e at hok hk
  cases hok with
  | sendReceive u m q i =>
    cases hk.2
    have hself : ((ipcReverseInsert s k.1 p k.2 nomem).reference p).entry k = s.entry k :=
      congrFun (ipcReverseInsert_fields s k.1 p k.2 nomem).1 k
    simp only [if_true]
    rw [hself, he]
    refine copyinOk_receive (h.keepSend he hp hfull rfl) hzero (pendingOk_same ?_)
    rw [hfree, setEntry_self]
  | receive u m q i =>
    cases hk.2
    have hobject : (s.entry k).object = some (.port p) := by rw [he]
    have hloose := ((h.loose (k := k) fun _ => by rw [he]; simp [Bits.type]).dncancel hobject).cancelIf
      m k.1 k.2
    obtain ⟨hcancel, hport, -⟩ := cancelIf_fields (s := (ipcRightDncancel s p k).1) m k.1 k.2
    have hentry : (if m then ipcMarequestCancel (ipcRightDncancel s p k).1 k.1 k.2
        else (ipcRightDncancel s p k).1).entry k =
        ⟨⟨u, false, true, false, false, false, m⟩, some (.port p), 0⟩ := by
      rw [hcancel, dncancel_entry, he]
    have hset := hloose.setEntry (p := p) (.none u m) (by simp) hp
      (by rw [hentry]; exact fun _ => rfl)
    rw [hentry] at hset
    simp only [Bool.false_eq_true, if_false]
    rw [setEntry_clear, hentry]
    refine copyinOk_receive ((hset.clearReceiver p).limbo ?_) hzero ?_
    · refine (samePort_clearReceiver p).active.trans ?_
      rw [setEntry_port, hport]
      exact (samePort_dncancel p).active.trans hactive
    · rw [hfree, setEntry_self]
      exact pendingOk_gone rfl
  | _ => cases hk.1

theorem Inv.copyin (hp : pend k = none) (msgt : Disposition) (deadok nomem : Bool)
    (hfull : full → nomem = false) :
    CopyinOk full naked pend k (some msgt) (fun p => {msgt.right p})
      (ipcRightCopyin s k msgt deadok nomem) := by
  have hcheck := fun q hq => h.check (k := k) (p := q) hq hp
  cases msgt with
  | makeSend | makeSendOnce =>
    refine copyinReceive_rule (copyinOk_none h) fun q hq =>
      copyinOk_some (h.setPort q _ rfl) ?_ (pendingOk_same hq.2)
    simp [Disposition.right]
  | moveReceive => exact copyinReceive_rule (copyinOk_none h) fun q hq => h.moveReceive hq hp hfull
  | copySend =>
    refine copyinSend_rule (copyinOk_none h) (Inv full none none · naked pend) (h.ok k) h hcheck
      (fun s' h' ht => h'.copyDead ht deadok) fun q hq _ _ =>
      copyinOk_some (h.copySright q) ?_ (pendingOk_same hq)
    simp [Disposition.right]
  | moveSend =>
    refine copyinSend_rule (copyinOk_none h) (Inv full none none · naked pend) (h.ok k) h hcheck
      (fun s' h' ht => h'.moveDead ht hp deadok) fun q hq _ hsend =>
      h.moveSend hq hsend hp ?_
    simp [Disposition.right]
  | moveSendOnce =>
    refine copyinSend_rule (copyinOk_none h) (Inv full none none · naked pend) (h.ok k) h hcheck
      (fun s' h' ht => h'.moveDead ht hp deadok) fun q hq _ hsend =>
      h.moveSendOnce hq hsend hp ?_
    simp [Disposition.right]

theorem Inv.restoreDead (hk : (s.entry k).bits.type = .none) (hp : pend k = none) (n : Nat) :
    Inv full none none (s.setEntry k { s.entry k with
      bits := { Bits.zero with urefs := n, deadName := true } }) naked pend := by
  have hok := h.ok k
  have hloose := h.loose (k := k) fun _ => by rw [hk]; exact nofun
  generalize he : s.entry k = e at hok hk
  cases hok with
  | none u m =>
    exact hloose.setPlain (.deadName n false) (by simp) hp (by rw [he])
  | _ => cases hk

theorem Inv.undo {msgt : Disposition} {c : Copied} (hm : PendingOk (s.entry k) ⟨some msgt, c⟩)
    (hp : pend k = none) :
    Inv full none none (ipcRightCopyinUndo s k msgt c) naked pend := by
  have hurefs : Inv full none none
      (if msgt = .copySend then s else s.setUrefs k ((s.entry k).bits.urefs + 1)) naked pend := by
    split
    · exact h
    · exact h.setUrefs k _
  refine Inv.releaseIf ?_ c.object
  split
  next hs => exact h.restoreDead (hm.gone hs) hp 2
  · split
    next ht => exact h.restoreDead ht hp 1
    next hne =>
      split
      · exact hurefs
      next hne' =>
        obtain ⟨p, hobject, hk⟩ := hm.same hne hne'
        have hobject' : c.object = some p := hobject
        rw [hobject']
        refine hurefs.check ?_ hp
        split
        · exact hk
        · rw [State.setUrefs, setEntry_self]
          exact hk

/-! ## Copyout -/

/-- What a copyout leaves: the invariant, without the receive right that is not naked any
more, if there is one. -/
def CopyoutOk (full : Prop) (naked : PortId → Nat) (pend : Key → Option Pending) (right : Right)
    (r : KernReturn × State) : Prop :=
  Inv full none none r.2
    (fun q => naked q - (if r.1 = .success then {right} else 0 : Multiset Right).count (.receive q)) pend

theorem copyoutOk_failed {right : Right} (hr : r ≠ .success := by exact nofun) :
    CopyoutOk full naked pend right (r, s) := by
  refine h.congr (fun q => ?_) rfl
  rw [if_neg hr]
  rfl

theorem copyoutOk_plain {right : Right} (hright : ∀ q, right ≠ .receive q) :
    CopyoutOk full naked pend right (r, s) := by
  refine h.congr (fun q => ?_) rfl
  simp only [nakedReceives]
  split
  · rw [count_singleton, if_neg (hright q).symm, Nat.sub_zero]
  · rfl

end

theorem copyoutOk_receive (h : Inv full none none s (update naked p 0) pend)
    (hnaked : naked p = 1) (hr : r = .success) :
    CopyoutOk full naked pend (.receive p) (r, s) := by
  refine h.congr (fun q => ?_) rfl
  simp only [nakedReceives, if_pos hr]
  by_cases hq : q = p
  · subst hq
    simp [hnaked]
  · simp [hq]

theorem Inv.setNew {stray' : Option PortId} (h : Inv full hole stray s naked pend)
    (hhole : ∀ k' ≠ k, ¬ Excused hole k') (hok : e.Ok) (hobject : e.object = some (.port p))
    (hport : p ∈ s.ports) (hrequest : e.request = 0) (hp : pend k = none)
    (hreceives : Receives stray stray' s naked k e)
    (hmapped : (s.space k.1).isActive → Mapped full s k e) :
    Inv full none stray' (s.setEntry k e) naked pend := by
  refine h.setEntry hhole (.inr rfl) hok (fun q hq => ?_) hreceives (fun _ => hmapped)
    (h.keepRequests (.inl hrequest)) (not_pending hp _)
  rw [hobject] at hq
  cases hq
  exact hport

theorem Inv.vacant (h : Inv full hole stray s naked pend) (hk : (s.entry k).bits.type = .none) :
    (s.entry k).bits.receive = false ∧ ∀ q, ¬ (s.entry k).sendTo q := by
  have hok := h.ok k
  refine ⟨?_, fun q hq => ?_⟩
  · generalize s.entry k = e at hok hk
    cases hok <;> first | rfl | cases hk
  · rw [hq.1] at hk
    cases hk

theorem Inv.receiveAt (h : Inv full hole (some p) s naked pend)
    (hmap : (s.space k.1).isActive → (s.space k.1).isReverseMap p = none) :
    Inv full hole (some p)
      (s.setPort p { s.port p with receiverName := k.2, data := .receiver k.1 }) naked pend := by
  refine h.setStray rfl rfl fun _ sp n hd hs hn => ?_
  cases hd
  rw [hmap hs] at hn
  cases hn

theorem ipcReverseInsert_setEntry (s : State) (k : Key) (e : Entry) (sp : SpaceId) (p : PortId)
    (n : Name) (nomem : Bool) :
    ipcReverseInsert (s.setEntry k e) sp p n nomem =
      (ipcReverseInsert s sp p n nomem).setEntry k e := by
  unfold ipcReverseInsert
  rw [setEntry_space]
  cases (s.space sp).isReverseMap p with
  | some n => rfl
  | none => cases nomem <;> rfl

theorem ipcRightReverse_none (h : ipcRightReverse s sp p = none) (ha : (s.port p).active) :
    (s.port p).data ≠ .receiver sp ∧ (s.space sp).isReverseMap p = none := by
  unfold ipcRightReverse at h
  rw [if_neg (not_not.mpr ha)] at h
  split at h
  · cases h
  next hd => exact ⟨hd, h⟩

variable {nomem : Bool}

theorem reverse_of_ite {msgt : PortMsgType} {name : Name}
    (h : (if msgt = .portSendOnce then none else ipcRightReverse s sp p) = some name) :
    msgt ≠ .portSendOnce ∧ ipcRightReverse s sp p = some name := by
  split at h
  · cases h
  next hne => exact ⟨hne, h⟩

theorem reverse_of_ite_none {msgt : PortMsgType}
    (h : (if msgt = .portSendOnce then none else ipcRightReverse s sp p) = none)
    (hne : msgt ≠ .portSendOnce) : ipcRightReverse s sp p = none := by
  rwa [if_neg hne] at h

section

variable (h : Inv full none none s naked pend)
include h

section

variable (hk : (s.entry k).bits.type = .none) (hp : pend k = none)
include hk hp

theorem Inv.newSend (hactive : (s.port p).active) (hreverse : ipcRightReverse s k.1 p = none)
    (hfull : full → nomem = false) (u : Nat) :
    Inv full none none ((ipcReverseInsert s k.1 p k.2 nomem).setEntry k
      ⟨⟨u, true, false, false, false, false, false⟩, some (.port p), 0⟩) naked pend := by
  obtain ⟨hdata, hmap⟩ := ipcRightReverse_none hreverse hactive
  obtain ⟨hvacant, hnot⟩ := h.vacant hk
  obtain ⟨hentry, hport, hports, -⟩ := ipcReverseInsert_fields s k.1 p k.2 nomem
  have hins := h.reverseInsert (p := p) hnot nomem
  refine hins.setNew excused_only (.send u false p 0) rfl
    (hports ▸ h.known p hactive) rfl hp (hins.keepReceive fun q => ?_) fun hs => ⟨fun q hq => ?_, fun hf q hq => ?_⟩
  · exact iff_of_false (not_receives rfl q) (not_receives (by rw [hentry]; exact hvacant) q)
  · obtain rfl := hins.only k p rfl hs q hq
    exact ⟨⟨rfl, rfl⟩, fun _ _ => by rwa [hport]⟩
  cases hq.2
  obtain rfl := hfull hf
  exact ipcReverseInsert_self hmap

theorem Inv.newReceive (hnaked : naked p ≠ 0) (hreverse : ipcRightReverse s k.1 p = none) :
    Inv full none none ((s.setPort p { s.port p with receiverName := k.2, data := .receiver k.1 }).setEntry k
      ⟨⟨0, false, true, false, false, false, false⟩, some (.port p), 0⟩)
      (update naked p 0) pend := by
  obtain ⟨hactive, -, hgrab⟩ := h.grab hnaked
  obtain ⟨-, hmap⟩ := ipcRightReverse_none hreverse hactive
  obtain ⟨hvacant, hnot⟩ := h.vacant hk
  have hat := hgrab.receiveAt (k := k) fun _ => hmap
  refine hat.setNew unexcused (.receive 0 false p 0) rfl
    (h.known p hactive) rfl hp (hat.gainReceive hvacant ⟨rfl, rfl⟩ ?_ ?_ ?_)
    (hat.keepMapped (not_excused_none k) fun q => iff_of_false (fun hq => absurd hq.1 nofun) (hnot q))
  · rwa [setPort_self]
  · rw [setPort_self]
  · rw [setPort_self]

theorem Inv.copyoutNew (hactive : (s.port p).active) {msgt : PortMsgType}
    (hreverse : msgt ≠ .portSendOnce → ipcRightReverse s k.1 p = none)
    (hnaked : msgt = .portReceive → naked p ≠ 0) (hfull : full → nomem = false) (overflow : Bool) :
    CopyoutOk full naked pend (msgt.right p)
      (ipcRightCopyout (s.setEntry k { Entry.blank with object := some (.port p) }) k msgt overflow nomem p) := by
  unfold ipcRightCopyout
  rw [setEntry_self]
  cases msgt with
  | portSendOnce =>
    refine copyoutOk_plain ?_ fun _ => nofun
    rw [setEntry_setEntry]
    obtain ⟨hvacant, hnot⟩ := h.vacant hk
    refine h.setNew unexcused (.sendOnce (0 ||| 1) false p 0) rfl
      (h.known p hactive) rfl hp (h.keepReceive fun q => ?_)
      (h.keepMapped (not_excused_none k) fun q => ?_)
    · exact iff_of_false (not_receives rfl q) (not_receives hvacant q)
    · exact iff_of_false (fun hq => absurd hq.1 nofun) (hnot q)
  | portSend =>
    refine copyoutOk_plain ?_ fun _ => nofun
    have hnew := h.newSend hk hp hactive (hreverse nofun) hfull 1
    rw [← setEntry_setEntry _ k { Entry.blank with object := some (.port p) },
      ← ipcReverseInsert_setEntry] at hnew
    exact hnew
  | portReceive =>
    refine copyoutOk_receive (Inv.releaseIf ?_ _) (h.grab (hnaked rfl)).2.1 rfl
    have hnew := h.newReceive hk hp (hnaked rfl) (hreverse nofun)
    rw [← setEntry_setEntry _ k { Entry.blank with object := some (.port p) }] at hnew
    exact hnew

end

theorem Inv.reverse_some (hs : (s.space k.1).isActive) (hk : ipcRightReverse s k.1 p = some k.2) :
    (s.port p).active ∧ ((s.entry k).receives p ∨
      ((s.port p).data ≠ .receiver k.1 ∧ (s.space k.1).isReverseMap p = some k.2 ∧ (s.entry k).sendTo p)) := by
  unfold ipcRightReverse at hk
  split at hk
  · cases hk
  rename_i ha
  have ha := not_not.mp ha
  refine ⟨ha, ?_⟩
  split at hk
  next hd =>
    left
    have := h.receiver p k.1 nofun ha hd hs
    rwa [Option.some.inj hk] at this
  next hd => exact .inr ⟨hd, hk, h.sound k.1 p k.2 hs hk (not_excused_none _)⟩

section

variable (hp : pend k = none) (hs : (s.space k.1).isActive)
  (hk : ipcRightReverse s k.1 p = some k.2)
include hp hs hk

theorem Inv.copyoutSend (overflow nomem : Bool) :
    Inv full none none (ipcRightCopyout s k .portSend overflow nomem p).2 naked pend := by
  have hdrop := h.setPort p { s.port p with
    srights := (s.port p).srights - 1, references := (s.port p).references - 1 } rfl
  have hmore : ∀ b : Bits, b = { (s.entry k).bits with send := true, urefs := (s.entry k).bits.urefs + 1 } →
      (s.entry k).bits.send →
      Inv full none none ((s.setPort p { s.port p with
        srights := (s.port p).srights - 1, references := (s.port p).references - 1 }).setEntry k
          { s.entry k with bits := b }) naked pend := by
    rintro b rfl hsend
    have := hdrop.setUrefs k ((s.entry k).bits.urefs + 1)
    rw [← hsend]
    exact this
  obtain ⟨-, hright⟩ := h.reverse_some hs hk
  have hok := h.ok k
  unfold ipcRightCopyout
  generalize he : s.entry k = e at hok hright hmore
  cases hok with
  | send u m q i | sendReceive u m q i =>
    simp only [if_true]
    split
    · split
      · exact hdrop
      · exact h
    · exact hmore _ rfl rfl
  | receive u m q i =>
    have hq : q = p := by
      rcases hright with hr | ⟨-, -, hr⟩
      · cases hr.2
        rfl
      · exact absurd hr.1 nofun
    subst hq
    refine (h.release q).setKept (.sendReceive (u + 1) m q i) ?_ ?_ ?_ nofun ?_ (not_pending hp _)
    all_goals rw [show (s.release q).entry k = _ from he]
    exact nofun
  | _ => rcases hright with hr | ⟨-, -, hr⟩ <;> exact absurd hr.1 nofun

theorem Inv.copyoutReceive (hnaked : naked p ≠ 0) (overflow nomem : Bool) :
    Inv full none none (ipcRightCopyout s k .portReceive overflow nomem p).2
      (update naked p 0) pend := by
  obtain ⟨hactive, -, hgrab⟩ := h.grab hnaked
  have hsend : (s.entry k).sendTo p := by
    rcases (h.reverse_some hs hk).2 with hr | ⟨-, -, hr⟩
    · exact absurd rfl (hgrab.receives k p hr).1
    · exact hr
  have hok := h.ok k
  have hremove := hgrab.reverseRemove hsend
  have hnone : ((ipcReverseRemove s k.1 p).space k.1).isReverseMap p = none :=
    (setReverse_space s k.1 k.1 p p none).2.trans (if_pos ⟨rfl, rfl⟩)
  have hat := (hremove.receiveAt (k := k) fun _ => hnone).release p
  have hport : (((ipcReverseRemove s k.1 p).setPort p { s.port p with
      receiverName := k.2, data := .receiver k.1 }).release p).port p = { s.port p with
        receiverName := k.2, data := .receiver k.1, references := (s.port p).references - 1 } := by
    rw [State.release, setPort_self, setPort_self]
  refine Inv.releaseIf ?_ _
  generalize he : s.entry k = e at hok hsend
  cases hok with
  | send u m q i =>
    cases hsend.2
    refine hat.setEntry excused_only (.inr rfl) (.sendReceive u m p i)
      (fun q hq => ?_) (hat.gainReceive ?_ ⟨rfl, rfl⟩ ?_ ?_ ?_) (fun _ => hat.unmapped hnone nofun)
      (hat.keepRequests (.inr ?_)) (not_pending hp _)
    · cases hq
      exact h.known p hactive
    · show (s.entry k).bits.receive = false
      rw [he]
    · exact (congrArg Port.active hport).trans hactive
    · exact congrArg Port.data hport
    · exact congrArg Port.receiverName hport
    · exact ⟨(congrArg Entry.object he).symm, (congrArg Entry.request he).symm⟩
  | _ => exact absurd hsend.1 nofun

theorem Inv.copyoutOld {msgt : PortMsgType} (hmsgt : msgt ≠ .portSendOnce)
    (hnaked : msgt = .portReceive → naked p ≠ 0) (overflow : Bool) :
    CopyoutOk full naked pend (msgt.right p) (ipcRightCopyout s k msgt overflow nomem p) := by
  cases msgt with
  | portSendOnce => exact absurd rfl hmsgt
  | portSend => exact copyoutOk_plain (h.copyoutSend hp hs hk overflow nomem) fun _ => nofun
  | portReceive =>
    exact copyoutOk_receive (h.copyoutReceive hp hs hk (hnaked rfl) overflow nomem)
      (h.grab (hnaked rfl)).2.1 rfl

end

theorem Inv.freeVacant (hk : (s.entry k).bits.type = .none) (hp : pend k = none) :
    Inv full none none (s.setEntry k .blank) naked pend :=
  (h.loose fun _ => by rw [hk]; exact nofun).setPlain .blank nofun hp (h.vacant hk).1

theorem Inv.copyout (sp : SpaceId) (msgt : PortMsgType) (overflow : Bool) (fresh : Option Name)
    (hidle : ∀ name ∈ ipcRightReverse s sp p, pend (sp, name) = none)
    (hfresh : ∀ name ∈ fresh, (s.entry (sp, name)).bits.type = .none ∧ pend (sp, name) = none)
    (hnaked : msgt = .portReceive → naked p ≠ 0) (hfull : full → nomem = false) :
    CopyoutOk full naked pend (msgt.right p) (ipcObjectCopyout s sp p msgt overflow nomem fresh) := by
  unfold ipcObjectCopyout
  split
  · exact copyoutOk_failed h
  next hs =>
    split
    next name hname =>
      obtain ⟨hne, hk⟩ := reverse_of_ite hname
      exact h.copyoutOld (k := (sp, name)) (hidle name hk) (not_not.mp hs) hk hne hnaked overflow
    next hname =>
      split
      · exact copyoutOk_failed h
      next name =>
        obtain ⟨hvacant, hp⟩ := hfresh name rfl
        split
        · exact copyoutOk_failed (h.freeVacant hvacant hp)
        next ha =>
          exact h.copyoutNew (k := (sp, name)) hvacant hp (not_not.mp ha) (reverse_of_ite_none hname)
            hnaked hfull overflow

theorem Inv.copyoutName (sp : SpaceId) (msgt : PortMsgType) (overflow fresh : Bool) (name : Name)
    (hp : pend (sp, name) = none) (hnaked : msgt = .portReceive → naked p ≠ 0)
    (hfull : full → nomem = false) :
    CopyoutOk full naked pend (msgt.right p)
      (ipcObjectCopyoutName s sp p msgt overflow nomem fresh name) := by
  unfold ipcObjectCopyoutName
  simp only
  split
  · exact copyoutOk_failed h
  next hs =>
    split
    · exact copyoutOk_failed h
    split
    next oname hname =>
      obtain ⟨hne, hk⟩ := reverse_of_ite hname
      split
      · refine copyoutOk_failed ?_
        split
        next hvacant => exact h.freeVacant hvacant hp
        · exact h
      next heq =>
        rw [← not_not.mp heq] at hk
        exact h.copyoutOld (k := (sp, name)) hp (not_not.mp hs) hk hne hnaked overflow
    next hname =>
      split
      · exact copyoutOk_failed h
      next hvacant =>
        split
        · exact copyoutOk_failed (h.freeVacant (not_not.mp hvacant) hp)
        next ha =>
          exact h.copyoutNew (k := (sp, name)) (not_not.mp hvacant) hp (not_not.mp ha)
            (reverse_of_ite_none hname) hnaked hfull overflow

end

end

end Mach.Ipc.Rights
