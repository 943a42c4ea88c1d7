import Mach.Ipc.RightCount

/-!
# Copied rights are conserved

What copying rights in and out does to the books: the rights that a copyin returns are
owed to its caller, and a copyout takes the right that it is given.
-/

namespace Mach.Ipc.Rights

open State Books

section

variable {P : Finset PortId} {full : Prop} {s : State} {naked : PortId → Nat}
  {pend : Key → Option Pending} {owed owed' : Right → Count} {k : Key} {p : PortId} {u i : Nat}
  {m : Bool} {rights : PortId → Multiset Right}

/-! ## Copyin -/

def CopyinBooks (P : Finset PortId) (owed : Right → Count) (rights : PortId → Multiset Right)
    (r : State × Option Copied) : Prop :=
  Books P r.1 (owed + tally (r.2.elim 0 (·.rights rights))) ∧
    ∀ r' ∈ r.2.elim 0 (·.rights rights), r'.port ∈ P

theorem copyinBooks_some {d : Option PortId} (h : Owes P s (owed + tally (rights p)) (sonces d))
    (hrights : Known P (rights p)) : CopyinBooks P owed rights (s, some ⟨some p, d⟩) := by
  refine ⟨?_, known_add.mpr ⟨hrights, h.2⟩⟩
  show Books P s (owed + tally (rights p + sonces d))
  rw [tally_add, ← add_assoc]
  exact h.1

theorem copyinBooks_plain (h : Books P s (owed + tally (rights p))) (hrights : Known P (rights p)) :
    CopyinBooks P owed rights (s, some ⟨some p, none⟩) :=
  copyinBooks_some h.owes hrights

theorem rights_of_none {e : Entry} (hok : e.Ok) (ht : e.bits.type = .none) : e.rights = 0 := by
  cases hok <;> first | rfl | cases ht

section

variable (h : Books P s owed)
include h

theorem copyinBooks_none : CopyinBooks P owed rights (s, none) := h.owes

theorem copyinBooks_dead : CopyinBooks P owed rights (s, some ⟨none, none⟩) := h.owes

theorem Books.copyDead (deadok : Bool) : CopyinBooks P owed rights (copyDead s deadok) := by
  unfold Rights.copyDead
  split
  · exact copyinBooks_dead h
  · exact copyinBooks_none h

theorem Books.moveDead (hok : (s.entry k).Ok) (hk : (s.entry k).bits.type = .deadName)
    (deadok : Bool) :
    CopyinBooks P owed rights (moveDead s k deadok) := by
  generalize he : s.entry k = e at hok hk
  cases hok with
  | deadName u m =>
    cases deadok with
    | false => exact copyinBooks_none h
    | true => exact copyinBooks_dead (h.setSame (by rw [he]; rfl))
  | _ => cases hk

theorem Books.clearSend (hp : p ∈ P) (ha : (s.port p).active)
    (he : s.entry k = ⟨⟨u, true, false, false, false, false, m⟩, some (.port p), i⟩)
    {f : State → State} (more : Right → Count) (hentry : ∀ t, (f t).entry = t.entry)
    (hf : ∀ t o, Books P t o → Books P (f t) (o + more)) {t : State}
    (ht : f (if m then ipcMarequestCancel (ipcReverseRemove (ipcRightDncancel s p k).1 k.1 p) k.1 k.2
      else ipcReverseRemove (ipcRightDncancel s p k).1 k.1 p) = t) :
    Owes P ((t.setEntry k { t.entry k with object := none }).setEntry k
      { (t.setEntry k { t.entry k with object := none }).entry k with
        bits := ⟨0, false, false, false, false, false, m⟩ })
      (owed + more + tally {.send p}) (sonces (ipcRightDncancel s p k).2) := by
  obtain ⟨hd, hknown⟩ := h.dncancel hp ha k
  have hrights := rights_dncancel (by rw [he])
  have hbooks := hf _ _ ((hd.reverseRemove k.1 p).cancelIf m k.1 k.2)
  have htk : (t.entry k).rights = {.send p} := by
    rw [← ht, hentry, (cancelIf_fields _ _ _).1, ipcReverseRemove, setReverse_entry, hrights, he]
    rfl
  rw [ht] at hbooks
  refine ⟨?_, hknown⟩
  rw [setEntry_clear]
  refine (hbooks.clear htk rfl).congr fun r _ => ?_
  show owed r + more r + tally {.send p} r + _ = owed r + _ + more r + tally {.send p} r
  ring

section

variable (hok : (s.entry k).Ok) (hp : p ∈ P) (ha : (s.port p).active) (hk : (s.entry k).object = some (.port p))
include hok hp ha hk

theorem Books.moveSend (hsend : (s.entry k).bits.send) :
    CopyinBooks P owed (fun q => {.send q}) ((moveSend s p k).1, some ⟨some p, (moveSend s p k).2⟩) := by
  have hknown : Known P {.send p} := known_singleton hp
  have hcopy : ∀ n, CopyinBooks P owed (fun q => {.send q})
      ((s.copySright p).setUrefs k n, some ⟨some p, none⟩) :=
    fun n => copyinBooks_plain ((h.copySright p).setUrefs k n) hknown
  unfold Rights.moveSend
  generalize he : s.entry k = e at hok hk hsend
  cases hok with
  | send u m q i =>
    cases hk
    simp only [Bool.false_eq_true, if_false]
    split
    · have hclear := h.clearSend hp ha he 0 (fun _ => rfl)
        (fun t o ht => by rwa [add_zero]) rfl
      rw [add_zero] at hclear
      exact copyinBooks_some hclear hknown
    · exact hcopy _
  | sendReceive u m q i =>
    cases hk
    simp only [if_true]
    split
    · have hk' : ((s.reference p).entry k) = _ := he
      rw [hk']
      refine copyinBooks_plain ((h.reference p).clear ?_ rfl) hknown
      rw [hk']
      rfl
    · exact hcopy _
  | _ => cases hsend

theorem Books.moveSendOnce (hsend : (s.entry k).bits.sendOnce) :
    CopyinBooks P owed (fun q => {.sendOnce q})
      ((moveSendOnce s p k).1, some ⟨some p, (moveSendOnce s p k).2⟩) := by
  obtain ⟨hd, hknown⟩ := h.dncancel hp ha k
  have hrights := rights_dncancel hk
  simp only [Rights.moveSendOnce, dncancel_entry]
  generalize he : s.entry k = e at hok hk hsend hrights
  cases hok with
  | sendOnce u m q i =>
    cases hk
    refine copyinBooks_some ⟨(hd.clear hrights rfl).congr fun r _ => ?_, hknown⟩ (known_singleton hp)
    show owed r + tally {.sendOnce p} r + _ = owed r + _ + tally (0 + {.sendOnce p}) r
    rw [zero_add]
    ring
  | _ => cases hsend

end

theorem Books.copyinTwo (hinv : Inv full none none s naked pend) (hpend : pend k = none) :
    CopyinBooks P owed (fun q => {.send q, .send q}) (ipcRightCopyinTwo s k) := by
  have hok := hinv.ok k
  unfold ipcRightCopyinTwo
  simp only
  split
  · exact copyinBooks_none h
  next p hport =>
    have hk := Entry.object_of_port hport
    have hp : p ∈ P := h.ports ▸ hinv.object k p hk
    have hknown : Known P {.send p, .send p} :=
      known_add.mpr ⟨known_singleton hp, known_singleton hp⟩
    have htwo : tally {.send p, .send p} = tally {.send p} + tally {.send p} :=
      tally_add {.send p} {.send p}
    split
    · exact copyinBooks_none h
    next hsend =>
      refine h.afterCheck hinv hk hpend (fun s' hb _ _ => copyinBooks_none hb) fun ha => ?_
      have hcopy : ∀ n, CopyinBooks P owed (fun q => {.send q, .send q})
          (((s.copySright p).copySright p).setUrefs k n, some ⟨some p, none⟩) := by
        refine fun n => copyinBooks_plain ?_ hknown
        rw [htwo, ← add_assoc]
        exact ((h.copySright p).copySright p).setUrefs k n
      generalize he : s.entry k = e at hok hk hsend
      cases hok with
      | send u m q i =>
        cases hk
        simp only [Bool.false_eq_true, if_false]
        split
        · have hclear := h.clearSend hp ha he (f := (State.copySright · p)) (tally {.send p})
            (fun _ => rfl) (fun t o ht => ht.copySright p) rfl
          rw [add_assoc owed, ← htwo] at hclear
          exact copyinBooks_some hclear hknown
        · exact hcopy _
      | sendReceive u m q i =>
        cases hk
        simp only [if_true]
        split
        · have hk' : (((s.copySright p).reference p).entry k) = _ := he
          rw [hk']
          refine copyinBooks_plain ?_ hknown
          rw [htwo, ← add_assoc]
          refine ((h.copySright p).reference p).clear ?_ rfl
          rw [hk']
          rfl
        · exact hcopy _
      | _ => exact absurd (.inl nofun) hsend

theorem Books.moreReceive (p : PortId) : Books P s (owed + tally {.receive p}) := by
  refine h.congr fun r hr => ?_
  rw [Pi.add_apply, tally_singleton, if_neg, add_zero]
  rintro rfl
  exact hr.2 rfl

theorem Books.lessReceive (p : PortId) : Books P s (owed - tally {.receive p}) := by
  refine h.congr fun r hr => ?_
  rw [Pi.sub_apply, tally_singleton, if_neg, sub_zero]
  rintro rfl
  exact hr.2 rfl

theorem Books.moveReceive (hinv : Inv full none none s naked pend)
    (hk : (s.entry k).receives p) (nomem : Bool) :
    CopyinBooks P owed (fun q => {.receive q})
      ((moveReceive s p k nomem).1, some ⟨some p, (moveReceive s p k nomem).2⟩) := by
  have ha := (hinv.receives k p hk).2.1
  have hp : p ∈ P := h.ports ▸ hinv.known p ha
  have hknown : Known P {.receive p} := known_singleton hp
  have hok := hinv.ok k
  unfold Rights.moveReceive
  generalize he : s.entry k = e at hok hk
  cases hok with
  | sendReceive u m q i =>
    cases hk.2
    have hself : ((ipcReverseInsert s k.1 p k.2 nomem).reference p).entry k = s.entry k :=
      congrFun (ipcReverseInsert_fields s k.1 p k.2 nomem).1 k
    simp only [if_true]
    rw [hself, he]
    refine copyinBooks_plain (moreReceive ?_ p) hknown
    refine ((setSame ((h.reverseInsert k.1 p k.2 nomem).reference p) ?_).clearReceiver p).limbo p
    rw [hself, he]
    rfl
  | receive u m q i =>
    cases hk.2
    obtain ⟨hd, hdn⟩ := h.dncancel hp ha k
    have hentry : (if m then ipcMarequestCancel (ipcRightDncancel s p k).1 k.1 k.2
        else (ipcRightDncancel s p k).1).entry k =
        ⟨⟨u, false, true, false, false, false, m⟩, some (.port p), 0⟩ := by
      rw [(cancelIf_fields m k.1 k.2).1, dncancel_entry, he]
    simp only [Bool.false_eq_true, if_false]
    rw [setEntry_clear, hentry]
    refine copyinBooks_some ⟨?_, hdn⟩ hknown
    rw [add_right_comm]
    refine ((setSame (hd.cancelIf m k.1 k.2) ?_).clearReceiver p |>.limbo p).moreReceive p
    rw [hentry]
    rfl
  | _ => exact absurd hk.1 nofun

theorem Books.copyin (hinv : Inv full none none s naked pend)
    (hpend : pend k = none) (msgt : Disposition) (deadok nomem : Bool) :
    CopyinBooks P owed (fun p => {msgt.right p}) (ipcRightCopyin s k msgt deadok nomem) := by
  have hmem : ∀ q, (s.entry k).object = some (.port q) → q ∈ P :=
    fun q hq => h.ports ▸ hinv.object k q hq
  have hcheck := fun q hq => And.intro (h.check (p := q) hq) (hinv.check hq hpend)
  cases msgt with
  | makeSend =>
    exact copyinReceive_rule (copyinBooks_none h) fun q hq =>
      copyinBooks_plain (h.makeSend q) (known_singleton (hmem q hq.2))
  | makeSendOnce =>
    exact copyinReceive_rule (copyinBooks_none h) fun q hq =>
      copyinBooks_plain (h.makeSonce q) (known_singleton (hmem q hq.2))
  | moveReceive => exact copyinReceive_rule (copyinBooks_none h) fun q hq => h.moveReceive hinv hq nomem
  | copySend =>
    exact copyinSend_rule (copyinBooks_none h) (fun s => Books P s owed ∧ Inv full none none s naked pend)
      (hinv.ok k) ⟨h, hinv⟩ hcheck (fun s' hs' _ => hs'.1.copyDead deadok)
      fun q hq _ _ => copyinBooks_plain (h.copySright q) (known_singleton (hmem q hq))
  | moveSend =>
    exact copyinSend_rule (copyinBooks_none h) (fun s => Books P s owed ∧ Inv full none none s naked pend)
      (hinv.ok k) ⟨h, hinv⟩ hcheck (fun s' hs' ht => hs'.1.moveDead (hs'.2.ok k) ht deadok)
      fun q hq ha hsend => h.moveSend (hinv.ok k) (hmem q hq) ha hq hsend
  | moveSendOnce =>
    exact copyinSend_rule (copyinBooks_none h) (fun s => Books P s owed ∧ Inv full none none s naked pend)
      (hinv.ok k) ⟨h, hinv⟩ hcheck (fun s' hs' ht => hs'.1.moveDead (hs'.2.ok k) ht deadok)
      fun q hq ha hsend => h.moveSendOnce (hinv.ok k) (hmem q hq) ha hq hsend

theorem Books.restoreDead (hok : (s.entry k).Ok) (hk : (s.entry k).bits.type = .none) (n : Nat) :
    Books P (s.setEntry k { s.entry k with
      bits := { Bits.zero with urefs := n, deadName := true } }) owed := by
  refine h.setSame ((rights_of_none hok hk).symm ▸ ?_)
  unfold Entry.rights
  split <;> rfl

theorem Books.releaseIf (q : Option PortId) : Books P (match q with
      | some p => s.release p
      | none => s) owed := by
  cases q with
  | none => exact h
  | some p => exact h.release p

theorem Books.undo {msgt : Disposition} {c : Copied} (hok : (s.entry k).Ok)
    (hm : PendingOk (s.entry k) ⟨some msgt, c⟩) : Books P (ipcRightCopyinUndo s k msgt c) owed := by
  have hurefs : Books P
      (if msgt = .copySend then s else s.setUrefs k ((s.entry k).bits.urefs + 1)) owed := by
    split
    · exact h
    · exact h.setUrefs k _
  refine releaseIf ?_ c.object
  split
  next hs => exact h.restoreDead hok (hm.gone hs) 2
  · split
    next ht => exact h.restoreDead hok ht 1
    next hne =>
      split
      · exact hurefs
      next hne' =>
        obtain ⟨p, hobject, hk⟩ := hm.same hne hne'
        have hobject' : c.object = some p := hobject
        rw [hobject']
        refine hurefs.check ?_
        split
        · exact hk
        · rw [State.setUrefs, setEntry_self]
          exact hk

/-! ## Copyout -/

def CopyoutBooks (P : Finset PortId) (owed : Right → Count) (right : Right)
    (r : KernReturn × State) : Prop :=
  Books P r.2 (if r.1 = .success then owed - tally {right} else owed)

theorem copyoutBooks_failed {right : Right} {r : KernReturn} (hr : r ≠ .success := by exact nofun) :
    CopyoutBooks P owed right (r, s) := by
  show Books P s (if r = .success then _ else _)
  rwa [if_neg hr]

omit h in
theorem copyoutBooks_success {right : Right} (h : Books P s (owed - tally {right})) :
    CopyoutBooks P owed right (.success, s) := h

theorem Books.gain {e : Entry} {right : Right} (hk : (s.entry k).rights = 0)
    (he : e.rights = {right}) : Books P (s.setEntry k e) (owed - tally {right}) := by
  have hset := h.setEntry k e
  rwa [he, hk, tally_zero, add_zero] at hset

theorem Books.copyoutNew (hk : (s.entry k).rights = 0) (msgt : PortMsgType) (overflow nomem : Bool) :
    CopyoutBooks P owed (msgt.right p)
      (ipcRightCopyout (s.setEntry k { Entry.blank with object := some (.port p) }) k msgt overflow nomem p) := by
  have hset := h.setSame (e := { Entry.blank with object := some (.port p) }) hk.symm
  unfold ipcRightCopyout
  rw [setEntry_self]
  cases msgt with
  | portSendOnce =>
    refine copyoutBooks_success (hset.gain ?_ rfl)
    rw [setEntry_self]
    rfl
  | portSend =>
    refine copyoutBooks_success ((hset.reverseInsert k.1 p k.2 nomem).gain ?_ rfl)
    rw [(ipcReverseInsert_fields _ k.1 p k.2 nomem).1, setEntry_self]
    rfl
  | portReceive =>
    refine copyoutBooks_success (lessReceive (releaseIf ?_ _) p)
    refine (setOther (x := { (s.setEntry k { Entry.blank with object := some (.port p) }).port p with
      receiverName := k.2, data := .receiver k.1 }) hset rfl rfl rfl).setSame ?_
    show _ = ((s.setEntry k _).entry k).rights
    rw [setEntry_self]
    rfl

theorem Books.freeVacant (hok : (s.entry k).Ok) (hk : (s.entry k).bits.type = .none) :
    Books P (s.setEntry k .blank) owed :=
  h.setSame (rights_of_none hok hk).symm

section

variable (hinv : Inv full none none s naked pend)
include hinv

theorem Books.copyoutOld (hs : (s.space k.1).isActive)
    (hk : ipcRightReverse s k.1 p = some k.2) {msgt : PortMsgType} (hmsgt : msgt ≠ .portSendOnce)
    (overflow nomem : Bool) :
    CopyoutBooks P owed (msgt.right p) (ipcRightCopyout s k msgt overflow nomem p) := by
  obtain ⟨-, hright⟩ := hinv.reverse_some hs hk
  have hobject : (s.entry k).object = some (.port p) := hright.elim And.right (·.2.2.2)
  have hok := hinv.ok k
  unfold ipcRightCopyout
  cases msgt with
  | portSendOnce => exact absurd rfl hmsgt
  | portSend =>
    have hdrop := h.dropCopy p
    generalize he : s.entry k = e at hok hright hobject
    cases hok with
    | send u m q i | sendReceive u m q i =>
      simp only [if_true]
      split
      · split
        · exact copyoutBooks_success hdrop
        · exact copyoutBooks_failed h
      · refine copyoutBooks_success (hdrop.setSame ?_)
        show _ = (s.entry k).rights
        rw [he]
        rfl
    | receive u m q i =>
      cases hobject
      refine copyoutBooks_success ((h.release p).gain ?_ rfl)
      show (s.entry k).rights = 0
      rw [he]
      rfl
    | _ => rcases hright with hr | ⟨-, -, hr⟩ <;> exact absurd hr.1 nofun
  | portReceive =>
    refine copyoutBooks_success (lessReceive (releaseIf ?_ _) p)
    have hset : Books P (s.setPort p { s.port p with receiverName := k.2, data := .receiver k.1 }) owed :=
      h.setOther rfl rfl rfl
    split
    · exact ((hset.release p).reverseRemove k.1 p).setSame rfl
    · exact hset.setSame rfl

theorem Books.copyout (sp : SpaceId) (msgt : PortMsgType)
    (overflow nomem : Bool) (fresh : Option Name)
    (hfresh : ∀ name ∈ fresh, (s.entry (sp, name)).bits.type = .none) :
    CopyoutBooks P owed (msgt.right p) (ipcObjectCopyout s sp p msgt overflow nomem fresh) := by
  unfold ipcObjectCopyout
  split
  · exact copyoutBooks_failed h
  next hs =>
    split
    next name hname =>
      obtain ⟨hne, hk⟩ := reverse_of_ite hname
      exact h.copyoutOld hinv (not_not.mp hs) hk hne overflow nomem
    next hname =>
      split
      · exact copyoutBooks_failed h
      next name =>
        have hvacant := hfresh name rfl
        split
        · exact copyoutBooks_failed (h.freeVacant (hinv.ok _) hvacant)
        next ha =>
          exact h.copyoutNew (rights_of_none (hinv.ok _) hvacant) msgt overflow nomem

theorem Books.copyoutName (sp : SpaceId)
    (msgt : PortMsgType) (overflow nomem fresh : Bool) (name : Name) :
    CopyoutBooks P owed (msgt.right p)
      (ipcObjectCopyoutName s sp p msgt overflow nomem fresh name) := by
  unfold ipcObjectCopyoutName
  simp only
  split
  · exact copyoutBooks_failed h
  next hs =>
    split
    · exact copyoutBooks_failed h
    split
    next oname hname =>
      obtain ⟨hne, hk⟩ := reverse_of_ite hname
      split
      · refine copyoutBooks_failed ?_
        split
        next hvacant => exact h.freeVacant (hinv.ok _) hvacant
        · exact h
      next heq =>
        rw [← not_not.mp heq] at hk
        exact h.copyoutOld hinv (not_not.mp hs) hk hne overflow nomem
    next hname =>
      split
      · exact copyoutBooks_failed h
      next hvacant =>
        split
        · exact copyoutBooks_failed (h.freeVacant (hinv.ok _) (not_not.mp hvacant))
        · exact h.copyoutNew (rights_of_none (hinv.ok _) (not_not.mp hvacant))
            msgt overflow nomem

end

end

end

end Mach.Ipc.Rights
