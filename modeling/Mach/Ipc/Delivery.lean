import Mathlib.Data.List.Nodup
import Mach.Ipc.SenderWakeup

/-!
# Exactly-once delivery in order

Messages migrate between the queue of a port and the queue of the set it is a
member of, with receivers waiting on either side. What survives every
interleaving is an equation per live port:

  accepted = delivered ++ queued

as *lists*: nothing is lost, nothing is duplicated and the order is kept. The
sequence numbers then count the left part of the equation, and `ip_msgcount`
counts what has not been returned to a receiver yet.

Inside `ipc_mqueue_move` and between the sections of a send or a receive some
messages are in the hands of the running thread. `Inv front back` is the
invariant with those messages named: `front` was just dequeued and goes out
before everything queued, `back` is still to be deposited behind it.
-/

namespace Mach.Ipc.Queue

open List State Port

/-- The messages of a list that were sent to `p`. -/
def ofPort (p : Nat) (ks : List Kmsg) : List Kmsg :=
  ks.filter fun k => k.header.remotePort = p

def deliveriesOf (p : Nat) (ds : List Delivery) : List Delivery :=
  ds.filter fun d => d.kmsg.header.remotePort = p

namespace State

/-- The messages accepted for `p`. Circular messages are destroyed by the send
that accepts them. -/
def accepted (s : State) (p : Nat) : List Kmsg :=
  (ofPort p s.ghost.accepted).filter fun k => ¬ k.header.circular

def delivered (s : State) (p : Nat) : List Delivery := deliveriesOf p s.ghost.delivered

/-- The messages of `p` in the queue it is using. -/
def queued (s : State) (p : Nat) : List Kmsg := ofPort p (s.mqueue (s.queueOf p)).messages

end State

/-- What delivery depends on, for one port. `front` and `back` are the port's
messages in the hands of the running thread. -/
@[ext]
structure View where
  kernel : Bool
  seqno0 : Nat
  seqno : Nat
  msgcount : Nat
  accepted : List Kmsg
  delivered : List Delivery
  front : List Kmsg
  queued : List Kmsg
  back : List Kmsg
  held : Nat

def State.view (s : State) (front back : List Kmsg) (p : Nat) : View where
  kernel := (s.port p).kernel
  seqno0 := s.ghost.seqno0 p
  seqno := (s.port p).seqno
  msgcount := (s.port p).msgcount
  accepted := s.accepted p
  delivered := s.delivered p
  front := ofPort p front
  queued := s.queued p
  back := ofPort p back
  held := (deliveriesOf p (s.handed ++ s.taken)).length

structure View.Ok (v : View) : Prop where
  fifo : ¬ v.kernel → v.accepted = v.delivered.map (·.kmsg) ++ v.front ++ v.queued ++ v.back
  seqno : v.seqno = (v.seqno0 + v.delivered.length) % 2 ^ 32
  drawn : ∀ i d, v.delivered[i]? = some d → d.seqno = (v.seqno0 + i) % 2 ^ 32
  count : v.msgcount = v.front.length + v.queued.length + v.back.length + v.held

variable {v : View} {k : Kmsg} {back ks front : List Kmsg} {d : Delivery} {n p : Nat} {s : State}
  {x : Port}

section

variable (h : v.Ok)
include h

theorem View.Ok.of_eq {w : View} (hq : w.queued = v.queued) (hb : w.back = v.back)
    (hf : w.front = v.front) (hh : w.held = v.held)
    (hp : (w.kernel, w.seqno, w.msgcount) = (v.kernel, v.seqno, v.msgcount))
    (hd : (w.accepted, w.seqno0, w.delivered) = (v.accepted, v.seqno0, v.delivered)) : w.Ok := by
  simp only [Prod.mk.injEq] at hp hd
  exact View.ext hp.1 hd.2.1 hp.2.1 hp.2.2 hd.1 hd.2.2 hf hq hb hh ▸ h

theorem View.Ok.slot (hb : v.back = []) (k : Kmsg) :
    { v with msgcount := v.msgcount + 1, accepted := v.accepted ++ [k], back := [k] }.Ok := by
  refine ⟨fun hk => ?_, h.seqno, h.drawn, ?_⟩
  · have := h.fifo hk
    simp only [this, hb, append_nil]
  have := h.count
  simp only [hb, length_nil, length_singleton] at this ⊢
  omega

theorem View.Ok.regroup {front queued back : List Kmsg}
    (heq : front ++ queued ++ back = v.front ++ v.queued ++ v.back) :
    { v with front := front, queued := queued, back := back }.Ok := by
  refine ⟨fun hk => ?_, h.seqno, h.drawn, ?_⟩
  · have := h.fifo hk
    simp only [append_assoc] at this heq ⊢
    rw [this, heq]
  · have hcount := h.count
    have hlen := congrArg List.length heq
    simp only [length_append] at hlen ⊢
    omega

theorem View.Ok.enqueue (hb : v.back = k :: back) :
    { v with queued := v.queued ++ [k], back := back }.Ok :=
  h.regroup (by simp [hb])

theorem View.Ok.shift (hf : v.front = []) (hq : v.queued = []) (hb : v.back = k :: back) :
    { v with front := [k], back := back }.Ok :=
  h.regroup (by simp [hf, hq, hb])

theorem View.Ok.dequeue (hf : v.front = []) (hq : v.queued = k :: ks) :
    { v with front := [k], queued := ks }.Ok :=
  h.regroup (by simp [hf, hq])

theorem View.Ok.takeOut (hb : v.back = []) : { v with queued := [], back := v.queued }.Ok :=
  h.regroup (by simp [hb])

theorem View.Ok.draw (hf : v.front = [k]) (hk : d.kmsg = k) (hd : d.seqno = v.seqno) : { v with
      seqno := (v.seqno + 1) % 2 ^ 32
      delivered := v.delivered ++ [d]
      front := []
      held := v.held + 1 }.Ok := by
  refine ⟨fun hnk => ?_, ?_, fun i d' hi => ?_, ?_⟩
  · have := h.fifo hnk
    simp only [this, hf, map_append, map_cons, map_nil, hk, append_nil]
  · have := h.seqno
    simp only [length_append, length_singleton]
    omega
  · have hs := h.seqno
    rcases Nat.lt_trichotomy i v.delivered.length with hlt | heq | hgt
    · rw [List.getElem?_append_left hlt] at hi
      exact h.drawn i d' hi
    · subst heq
      rw [List.getElem?_concat_length] at hi
      obtain rfl := Option.some.inj hi
      rw [hd, hs]
    · rw [List.getElem?_eq_none (by simp; omega)] at hi
      exact absurd hi (by simp)
  · have := h.count
    simp only [hf, length_nil, length_singleton] at this ⊢
    omega

theorem View.Ok.release (hn : v.held = n + 1) :
    { v with msgcount := v.msgcount - 1, held := n }.Ok := by
  refine ⟨h.fifo, h.seqno, h.drawn, ?_⟩
  have := h.count
  simp only
  omega

end

structure Shape (s : State) : Prop where
  home : ∀ mq, ∀ k ∈ (s.mqueue mq).messages,
    s.queueOf k.header.remotePort = mq ∧ (s.port k.header.remotePort).active
  waiting : ∀ mq, (s.mqueue mq).threads ≠ [] → (s.mqueue mq).messages = []
  once : (s.handed ++ s.taken ++ s.received).Perm s.ghost.delivered
  label : s.ghost.accepted.map (·.ikm) = List.range s.ghost.accepted.length

structure Inv (s : State) (front back : List Kmsg) : Prop where
  shape : Shape s
  port : ∀ p, (s.port p).active → (s.view front back p).Ok

/-! ## Filters by port -/

@[simp] theorem ofPort_nil (p : Nat) : ofPort p [] = [] := rfl

@[simp] theorem ofPort_append (p : Nat) (ks ls : List Kmsg) :
    ofPort p (ks ++ ls) = ofPort p ks ++ ofPort p ls := filter_append ..

theorem ofPort_cons (p : Nat) (k : Kmsg) (ks : List Kmsg) :
    ofPort p (k :: ks) = if k.header.remotePort = p then k :: ofPort p ks else ofPort p ks := by
  simp [ofPort, filter_cons]

theorem ofPort_cons_self (k : Kmsg) (ks : List Kmsg) :
    ofPort k.header.remotePort (k :: ks) = k :: ofPort k.header.remotePort ks :=
  (ofPort_cons ..).trans (if_pos rfl)

theorem ofPort_cons_of_ne (h : k.header.remotePort ≠ p) (ks : List Kmsg) :
    ofPort p (k :: ks) = ofPort p ks :=
  (ofPort_cons ..).trans (if_neg h)

theorem mem_ofPort : k ∈ ofPort p ks ↔ k ∈ ks ∧ k.header.remotePort = p := by
  simp [ofPort]

theorem ofPort_eq_nil (h : ∀ k ∈ ks, k.header.remotePort ≠ p) : ofPort p ks = [] := by
  rw [ofPort]
  simpa using h

@[simp] theorem deliveriesOf_append (p : Nat) (ds es : List Delivery) :
    deliveriesOf p (ds ++ es) = deliveriesOf p ds ++ deliveriesOf p es :=
  filter_append ..

theorem deliveriesOf_single (p : Nat) (d : Delivery) :
    deliveriesOf p [d] = if d.kmsg.header.remotePort = p then [d] else [] := by
  simp [deliveriesOf, filter_cons]

theorem deliveriesOf_perm {ds es : List Delivery} (h : ds.Perm es) :
    (deliveriesOf p ds).Perm (deliveriesOf p es) := h.filter _

/-! ## Frames -/

def Port.unsent (x : Port) : Port := { x with qlimit := 0, blocked := [], woken := [] }

theorem Inv.congr {s' : State} (h : Inv s front back)
    (hm : ∀ mq, (s'.mqueue mq).messages = (s.mqueue mq).messages)
    (ht : ∀ mq, (s'.mqueue mq).threads ≠ [] → (s.mqueue mq).messages = [])
    (hp : ∀ p, (s'.port p).unsent = (s.port p).unsent)
    (hs : (s'.handed, s'.taken, s'.received, s'.ghost) = (s.handed, s.taken, s.received, s.ghost)) :
    Inv s' front back := by
  simp only [Prod.mk.injEq] at hs
  obtain ⟨hh, hk, hr, hg⟩ := hs
  have hact : ∀ p, (s'.port p).active = (s.port p).active := fun p => congrArg (·.active) (hp p)
  have hq : ∀ p, s'.queueOf p = s.queueOf p := fun p => by
    show (s'.port p).unsent.queue p = (s.port p).unsent.queue p
    rw [hp]
  refine ⟨⟨fun mq k hmem => ?_, fun mq hne => ?_, ?_, ?_⟩, fun p ha => ?_⟩
  · rw [hm] at hmem
    rw [hq, hact]
    exact h.shape.home mq k hmem
  · rw [hm]
    exact ht mq hne
  · rw [hh, hk, hr, hg]
    exact h.shape.once
  · rw [hg]
    exact h.shape.label
  · rw [hact] at ha
    have hv : s'.view front back p = s.view front back p := by
      have hker : (s'.port p).kernel = (s.port p).kernel := congrArg (·.kernel) (hp p)
      have hseq : (s'.port p).seqno = (s.port p).seqno := congrArg (·.seqno) (hp p)
      have hcnt : (s'.port p).msgcount = (s.port p).msgcount := congrArg (·.msgcount) (hp p)
      simp only [State.view, State.accepted, State.delivered, State.queued, hker, hseq, hcnt,
        hg, hq, hm, hh, hk]
    rw [hv]
    exact h.port p ha

section

variable {s : State} {p : Nat} {x : Port}

theorem queueOf_setPort (hx : x.pset = (s.port p).pset) (q : Nat) :
    (s.setPort p x).queueOf q = s.queueOf q := by
  by_cases hq : q = p
  · subst hq
    simp [State.queueOf, queue, hx]
  · simp [State.queueOf, setPort_port, hq]

theorem active_setPort (hx : x.active = (s.port p).active) (q : Nat) :
    ((s.setPort p x).port q).active = (s.port q).active := by
  by_cases hq : q = p
  · subst hq
    simp [hx]
  · simp [setPort_port, hq]

theorem Shape.setPort (h : Shape s) (hp : x.pset = (s.port p).pset)
    (ha : x.active = (s.port p).active) : Shape (s.setPort p x) := by
  refine ⟨fun mq k hmem => ?_, h.waiting, h.once, h.label⟩
  rw [queueOf_setPort hp, active_setPort ha]
  exact h.home mq k hmem

theorem view_setPort (hp : x.pset = (s.port p).pset) (front back : List Kmsg) (q : Nat) :
    (s.setPort p x).view front back q = if q = p then { s.view front back q with
        kernel := x.kernel, seqno := x.seqno, msgcount := x.msgcount }
      else s.view front back q := by
  have hqd : (s.setPort p x).queued q = s.queued q := by
    rw [State.queued, queueOf_setPort hp]
    rfl
  split
  next h => subst h; ext1 <;> simp [State.view, hqd] <;> rfl
  next h => ext1 <;> simp [State.view, hqd, setPort_port, h] <;> rfl

end

/-! ## Accepting -/

theorem accept_accepted (s : State) (hd : Header) (p : Nat) :
    (accept s hd).2.accepted p = s.accepted p ++
      if hd.remotePort = p ∧ ¬ hd.circular then [(accept s hd).1] else [] := by
  by_cases hp : hd.remotePort = p <;> by_cases hc : hd.circular <;>
    simp [State.accepted, accept, ofPort_cons, hp, hc]

theorem Shape.accept (h : Shape s) (hd : Header) : Shape (accept s hd).2 := by
  refine ⟨h.home, h.waiting, h.once, ?_⟩
  simp [Queue.accept, range_succ, h.label]

theorem Inv.acceptGone (h : Inv s [] []) (hd : Header)
    (hgone : (s.port hd.remotePort).kernel ∨ hd.circular) : Inv (accept s hd).2 [] [] := by
  refine ⟨h.shape.accept hd, fun p ha => ?_⟩
  have hx := h.port p ha
  refine ⟨fun hk => ?_, hx.seqno, hx.drawn, hx.count⟩
  have hnot : ¬ (hd.remotePort = p ∧ ¬ hd.circular) := by
    rintro ⟨rfl, hc⟩
    exact hgone.elim hk hc
  have hacc : (accept s hd).2.accepted p = s.accepted p := by
    rw [accept_accepted, if_neg hnot, append_nil]
  exact hacc.trans (hx.fifo hk)

theorem Inv.acceptSlot (h : Inv s [] []) (hd : Header) (hc : ¬ hd.circular) :
    Inv ((accept s hd).2.setPort hd.remotePort (s.port hd.remotePort).takeSlot)
      [] [(accept s hd).1] := by
  have hps : (s.port hd.remotePort).takeSlot.pset = ((accept s hd).2.port hd.remotePort).pset := rfl
  have hac : (s.port hd.remotePort).takeSlot.active =
    ((accept s hd).2.port hd.remotePort).active := rfl
  refine ⟨(h.shape.accept hd).setPort hps hac, fun p ha => ?_⟩
  rw [active_setPort hac] at ha
  rw [view_setPort hps]
  split
  next hp =>
    subst hp
    have hacc := accept_accepted s hd hd.remotePort
    rw [if_pos ⟨rfl, hc⟩] at hacc
    exact ((h.port _ ha).slot rfl (accept s hd).1).of_eq rfl
      (ofPort_cons_self (accept s hd).1 []) rfl rfl rfl (Prod.ext hacc rfl)
  next hp =>
    have hacc := accept_accepted s hd p
    rw [if_neg (fun hh => hp hh.1.symm), append_nil] at hacc
    exact (h.port p ha).of_eq rfl (ofPort_cons_of_ne (Ne.symm hp) []) rfl rfl
      rfl (Prod.ext hacc rfl)

/-! ## Delivering -/

theorem offer_none : ∀ {rs bad rest : List Receiver}, offer n rs = (bad, none, rest) → rest = []
  | [], _, _, h => by
    simp only [offer, Prod.mk.injEq] at h
    exact h.2.2.symm
  | r :: rs, bad, rest, h => by
    unfold offer at h
    split at h
    · simp at h
    simp only [Prod.mk.injEq] at h
    have htail : offer n rs = ((offer n rs).1, none, rest) := Prod.ext rfl (Prod.ext h.2.1 h.2.2)
    exact offer_none htail

theorem Inv.draw (h : Inv s [k] back) (t : Nat) {H T : List Delivery}
    (hd : (H ++ T).Perm (s.handed ++ s.taken ++ [(s.draw t k).1])) :
    Inv { (s.draw t k).2 with handed := H, taken := T } [] back := by
  have hps : (s.port k.header.remotePort).nextSeqno.pset = (s.port k.header.remotePort).pset := rfl
  have hac : (s.port k.header.remotePort).nextSeqno.active =
    (s.port k.header.remotePort).active := rfl
  have hsh := h.shape.setPort hps hac
  have hlen : ∀ q, (deliveriesOf q (H ++ T)).length =
      (deliveriesOf q (s.handed ++ s.taken)).length + (deliveriesOf q [(s.draw t k).1]).length := by
    intro q
    rw [(deliveriesOf_perm hd).length_eq, deliveriesOf_append _ (s.handed ++ s.taken),
      length_append]
  refine ⟨⟨hsh.home, hsh.waiting, ?_, hsh.label⟩, fun q ha => ?_⟩
  · refine (hd.append_right s.received).trans ?_
    rw [append_assoc _ [_]]
    refine (perm_append_comm.append_left (s.handed ++ s.taken)).trans ?_
    rw [← append_assoc]
    exact h.shape.once.append_right _
  · have hold := h.port q (by rwa [← active_setPort hac q])
    have hview : ({ (s.draw t k).2 with handed := H, taken := T } : State).view [] back q =
        { (s.setPort k.header.remotePort (s.port k.header.remotePort).nextSeqno).view [] back q with
          delivered := deliveriesOf q (s.ghost.delivered ++ [(s.draw t k).1])
          held := (deliveriesOf q (H ++ T)).length } := rfl
    have hport : (s.draw t k).1.kmsg.header.remotePort = k.header.remotePort := rfl
    rw [hview, view_setPort hps, hlen q, deliveriesOf_append q s.ghost.delivered, deliveriesOf_single, hport]
    by_cases hq : k.header.remotePort = q
    · rw [if_pos hq.symm, if_pos hq]
      subst hq
      exact hold.draw (ofPort_cons_self k []) rfl rfl
    · rw [if_neg (Ne.symm hq), if_neg hq, append_nil]
      exact hold.of_eq rfl rfl (ofPort_cons_of_ne hq []).symm rfl rfl rfl

theorem queued_setMqueue (s : State) (mq : Mq) (m : Mqueue) (q : Nat) :
    (s.setMqueue mq m).queued q = if s.queueOf q = mq then ofPort q m.messages else s.queued q := by
  have : (s.setMqueue mq m).queued q = ofPort q ((s.setMqueue mq m).mqueue (s.queueOf q)).messages :=
    rfl
  rw [this, setMqueue_mqueue]
  split <;> rfl

theorem Shape.setMqueue (h : Shape s) {mq : Mq} {m : Mqueue}
    (hh : ∀ k ∈ m.messages, s.queueOf k.header.remotePort = mq ∧
      (s.port k.header.remotePort).active)
    (hw : m.threads ≠ [] → m.messages = []) : Shape (s.setMqueue mq m) := by
  refine ⟨fun mq' k hk => ?_, fun mq' hne => ?_, h.once, h.label⟩
  · rw [setMqueue_mqueue] at hk
    split at hk
    next he => exact he ▸ hh k hk
    next => exact h.home mq' k hk
  · rw [setMqueue_mqueue] at hne ⊢
    split at hne
    next he => rw [if_pos he]; exact hw hne
    next he => rw [if_neg he]; exact h.waiting mq' hne

theorem Inv.enqueue (h : Inv s [] (k :: back)) (ha : (s.port k.header.remotePort).active)
    {mq : Mq} (hmq : s.queueOf k.header.remotePort = mq) :
    Inv (s.setMqueue mq ⟨(s.mqueue mq).messages ++ [k], []⟩) [] back := by
  refine ⟨h.shape.setMqueue (fun k' hk' => ?_) (absurd rfl), fun q hq => ?_⟩
  · rcases mem_append.mp hk' with hk' | hk'
    · exact h.shape.home _ k' hk'
    · obtain rfl := mem_singleton.mp hk'
      exact ⟨hmq, ha⟩
  · have hqd := queued_setMqueue s mq ⟨(s.mqueue mq).messages ++ [k], []⟩ q
    rw [ofPort_append] at hqd
    have hold := h.port q hq
    by_cases hp : k.header.remotePort = q
    · subst hp hmq
      rw [if_pos rfl, ofPort_cons_self] at hqd
      exact (hold.enqueue (ofPort_cons_self k back)).of_eq hqd rfl rfl rfl rfl rfl
    · have hsame : (s.setMqueue mq ⟨(s.mqueue mq).messages ++ [k], []⟩).queued q = s.queued q := by
        rw [hqd, ofPort_cons_of_ne hp, ofPort_nil, append_nil]
        split
        next he => rw [State.queued, he]
        next => rfl
      exact hold.of_eq hsame (ofPort_cons_of_ne hp back).symm rfl rfl rfl rfl

theorem Inv.dequeue {mq : Mq} (h : Inv s [] []) (hm : (s.mqueue mq).messages = k :: ks) :
    Inv (s.setMqueue mq ⟨ks, (s.mqueue mq).threads⟩) [k] [] := by
  have hhome : ∀ k' ∈ k :: ks, s.queueOf k'.header.remotePort = mq ∧
      (s.port k'.header.remotePort).active := fun k' hk' => h.shape.home mq k' (hm ▸ hk')
  refine ⟨h.shape.setMqueue (forall_mem_cons.mp hhome).2 (fun hne => ?_), fun q hq => ?_⟩
  · have := h.shape.waiting mq hne
    rw [hm] at this
    exact absurd this (cons_ne_nil _ _)
  · have hqd := queued_setMqueue s mq ⟨ks, (s.mqueue mq).threads⟩ q
    have hold := h.port q hq
    by_cases hp : k.header.remotePort = q
    · subst hp
      have hk := (hhome k mem_cons_self).1
      have hfull : s.queued k.header.remotePort = k :: ofPort k.header.remotePort ks := by
        rw [State.queued, hk, hm, ofPort_cons_self]
      rw [if_pos hk] at hqd
      exact (hold.dequeue rfl hfull).of_eq hqd rfl (ofPort_cons_self k []) rfl rfl rfl
    · have hsame : (s.setMqueue mq ⟨ks, (s.mqueue mq).threads⟩).queued q = s.queued q := by
        rw [hqd]
        split
        next he => rw [State.queued, he, hm, ofPort_cons_of_ne hp]
        next => rfl
      exact hold.of_eq hsame rfl (ofPort_cons_of_ne hp []) rfl rfl rfl

theorem Inv.setThreads (h : Inv s front back) (mq : Mq) (rs : List Receiver)
    (hrs : rs ≠ [] → (s.mqueue mq).messages = []) :
    Inv (s.setMqueue mq ⟨(s.mqueue mq).messages, rs⟩) front back := by
  refine h.congr (fun mq' => ?_) (fun mq' hne => ?_) (fun _ => rfl) rfl
  · rw [setMqueue_mqueue]
    split
    next he => rw [he]
    next => rfl
  · rw [setMqueue_mqueue] at hne
    split at hne
    next he => exact he ▸ hrs hne
    next => exact h.shape.waiting mq' hne

theorem Inv.rouse (h : Inv s front back) (rs : List Receiver) (mr : MachMsgReturn) :
    Inv (s.rouse rs mr) front back :=
  h.congr (fun _ => rfl) h.shape.waiting (fun _ => rfl) rfl

theorem Inv.ret (h : Inv s front back) (t : Nat) (mr : MachMsgReturn) :
    Inv (s.ret t mr) front back :=
  h.congr (fun _ => rfl) h.shape.waiting (fun _ => rfl) rfl

theorem Inv.shift (h : Inv s [] (k :: back)) (hq : s.queued k.header.remotePort = []) :
    Inv s [k] back := by
  refine ⟨h.shape, fun q ha => ?_⟩
  have hold := h.port q ha
  by_cases hp : k.header.remotePort = q
  · subst hp
    exact (hold.shift rfl hq (ofPort_cons_self k back)).of_eq rfl rfl (ofPort_cons_self k []) rfl
      rfl rfl
  · exact hold.of_eq rfl (ofPort_cons_of_ne hp back).symm (ofPort_cons_of_ne hp []) rfl rfl rfl

theorem Inv.deposit (h : Inv s [] (k :: back)) (ha : (s.port k.header.remotePort).active) :
    Inv (deposit s (s.queueOf k.header.remotePort) k) [] back := by
  unfold Queue.deposit
  split
  next bad rest ho =>
    obtain rfl := offer_none ho
    exact (h.rouse bad .rcvTooLarge).enqueue ha rfl
  next bad r rest ho =>
    have hnil := h.shape.waiting _ fun hn => by rw [hn] at ho; cases ho
    have h1 := (h.rouse bad .rcvTooLarge).setThreads (s.queueOf k.header.remotePort) rest
      fun _ => hnil
    refine (h1.shift ?_).draw r.thread ?_
    · rw [queued_setMqueue]
      exact (if_pos rfl).trans (by rw [State.rouse, hnil]; rfl)
    · rw [append_assoc, append_assoc]
      exact perm_append_comm.append_left _

theorem Inv.deposits {dest : Mq} : ∀ (ks : List Kmsg) {s : State},
    Inv s [] ks → (∀ k ∈ ks, k.header.remotePort = p) → (s.port p).active →
    s.queueOf p = dest → Inv (ks.foldl (Queue.deposit · dest ·) s) [] []
  | [], _, h, _, _, _ => h
  | k :: ks, s, h, hk, ha, hq => by
    have hkp := hk k mem_cons_self
    have hdep := h.deposit (by rw [hkp]; exact ha)
    rw [hkp, hq] at hdep
    have hu := deposit_port s dest k p
    have hact := congrArg active hu
    have hqu := congrArg (queue · p) hu
    exact Inv.deposits ks hdep (forall_mem_cons.mp hk).2 (hact.trans ha) (hqu.trans hq)

/-! ## Port sets -/

def State.without (s : State) (p : Nat) (x : Port) : State :=
  (s.setPort p x).setMqueue (s.queueOf p) ⟨(s.mqueue (s.queueOf p)).messages.filter
    (·.header.remotePort ≠ p), (s.mqueue (s.queueOf p)).threads⟩

theorem Inv.changed (h : Inv s front back) (mq : Mq) (mr : MachMsgReturn) :
    Inv (ipcMqueueChanged s mq mr) front back :=
  (h.rouse (s.mqueue mq).threads mr).setThreads mq _ (absurd rfl)

theorem setPort_setPort (s : State) (p : Nat) (x y : Port) :
    (s.setPort p x).setPort p y = s.setPort p y := by
  simp [State.setPort]

theorem releaseSlot_fields (x : Port) :
    (releaseSlot x).active = x.active ∧ (releaseSlot x).pset = x.pset ∧
    (releaseSlot x).kernel = x.kernel ∧ (releaseSlot x).seqno = x.seqno ∧
    (releaseSlot x).msgcount = x.msgcount - 1 := by
  unfold releaseSlot
  simp only
  split
  · split <;> simp
  · simp

section

variable (h : Inv s [] [])
include h

theorem Inv.mem_without {mq : Mq} (hk : k ∈ ((s.without p x).mqueue mq).messages) :
    k ∈ (s.mqueue mq).messages ∧ k.header.remotePort ≠ p := by
  rw [State.without, setMqueue_mqueue] at hk
  split at hk
  next he =>
    subst he
    exact ⟨(mem_filter.mp hk).1, by simpa using (mem_filter.mp hk).2⟩
  next he =>
    refine ⟨hk, fun hp => he ?_⟩
    rw [← (h.shape.home mq k hk).1, hp]

theorem Inv.move (ha : (s.port p).active) (hx : x = { s.port p with pset := x.pset })
    (hne : x.queue p ≠ s.queueOf p) :
    Inv (ipcMqueueMove (s.setPort p x) (x.queue p) (s.queueOf p) p) [] [] := by
  have hact : x.active = (s.port p).active := by rw [hx]
  have hown : (s.setPort p x).queueOf p = x.queue p := by
    rw [State.queueOf, setPort_port_self]
  have hother : ∀ q, q ≠ p → (s.setPort p x).queueOf q = s.queueOf q := by
    intro q hq
    rw [State.queueOf, setPort_port, if_neg hq]
    rfl
  refine Inv.deposits _ ⟨⟨fun mq k hk => ?_, fun mq hm => ?_, h.shape.once,
    h.shape.label⟩, fun q hq => ?_⟩ (fun k hk => ?_) ?_ hown
  · obtain ⟨hk, hp⟩ := h.mem_without hk
    exact ⟨(hother _ hp).trans (h.shape.home mq k hk).1,
      (active_setPort hact _).trans (h.shape.home mq k hk).2⟩
  · refine eq_nil_iff_forall_not_mem.mpr fun k hk => ?_
    have hk' := (h.mem_without hk).1
    have hthr : (s.mqueue mq).threads ≠ [] := by
      simp only [setMqueue_mqueue] at hm
      split at hm
      next he => rw [he]; exact hm
      next => exact hm
    rw [h.shape.waiting mq hthr] at hk'
    exact absurd hk' not_mem_nil
  · have hold := h.port q ((active_setPort hact q).symm.trans hq)
    by_cases hp : q = p
    · subst hp
      have hport : (s.setPort q x).port q = x := setPort_port_self ..
      have hnil : (s.without q x).queued q = [] := ofPort_eq_nil fun k hk => (h.mem_without hk).2
      have hback : ofPort q (ofPort q (s.mqueue (s.queueOf q)).messages) = s.queued q := by
        simp [ofPort, State.queued]
      have hker : ((s.setPort q x).port q).kernel = (s.port q).kernel := by rw [hport, hx]
      have hseq : ((s.setPort q x).port q).seqno = (s.port q).seqno := by rw [hport, hx]
      have hcnt : ((s.setPort q x).port q).msgcount = (s.port q).msgcount := by rw [hport, hx]
      exact (hold.takeOut rfl).of_eq hnil hback rfl rfl (Prod.ext hker (Prod.ext hseq hcnt)) rfl
    · have hport : (s.setPort p x).port q = s.port q := by rw [setPort_port, if_neg hp]
      have hback : ofPort q (ofPort p (s.mqueue (s.queueOf p)).messages) = [] :=
        ofPort_eq_nil fun k hk => by
          rw [(mem_ofPort.mp hk).2]
          exact Ne.symm hp
      have hqd : (s.without p x).queued q = s.queued q := by
        show ofPort q ((s.without p x).mqueue ((s.setPort p x).queueOf q)).messages = _
        rw [hother q hp, State.without, setMqueue_mqueue, State.queued]
        split
        next he =>
          rw [he]
          simp only [ofPort, filter_filter]
          refine filter_congr fun k _ => ?_
          by_cases hk : k.header.remotePort = q <;> simp [hk, hp]
        next => rfl
      exact hold.of_eq hqd hback rfl rfl
        (congrArg (fun x : Port => (x.kernel, x.seqno, x.msgcount)) hport) rfl
  · simpa using (mem_filter.mp hk).2
  · exact (active_setPort hact p).trans ha

theorem Inv.psetAdd {q : Nat} (ha : (s.port p).active) (hp : (s.port p).pset = none) :
    Inv (ipcPsetAdd s q p) [] [] := by
  have hold : s.queueOf p = .port p := by simp [State.queueOf, queue, hp]
  have hmove := h.move ha (x := { s.port p with pset := some q }) rfl (by
    rw [hold]; simp [queue])
  rw [hold] at hmove
  exact hmove.changed _ _

theorem Inv.psetRemove {q : Nat} (ha : (s.port p).active) (hp : (s.port p).pset = some q) :
    Inv (ipcPsetRemove s q p) [] [] := by
  have hold : s.queueOf p = .pset q := by simp [State.queueOf, queue, hp]
  have hmove := h.move ha (x := { s.port p with pset := none }) rfl (by
    rw [hold]; simp [queue])
  rw [hold] at hmove
  exact hmove

theorem Inv.die (hp : (s.port p).pset = none) (hx : x.active = false) (rs : List Receiver) :
    Inv ((s.setPort p x).setMqueue (.port p) ⟨[], rs⟩) [] [] := by
  have hown : s.queueOf p = .port p := by simp [State.queueOf, queue, hp]
  have honly : ∀ q, s.queueOf q = .port p → q = p := by
    intro q hq
    unfold State.queueOf queue at hq
    split at hq <;> cases hq
    rfl
  have hmsg : ∀ mq, (((s.setPort p x).setMqueue (.port p) ⟨[], rs⟩).mqueue mq).messages =
      if mq = .port p then [] else (s.mqueue mq).messages := by
    intro mq
    rw [setMqueue_mqueue]
    split <;> rfl
  have hport : ∀ q, q ≠ p → (s.setPort p x).port q = s.port q := by
    intro q hq
    rw [setPort_port, if_neg hq]
  refine ⟨⟨fun mq k hk => ?_, fun mq hne => ?_, h.shape.once, h.shape.label⟩, fun q ha => ?_⟩
  · rw [hmsg] at hk
    split at hk
    next => exact absurd hk not_mem_nil
    next hmq =>
      have hhome := h.shape.home mq k hk
      have hkp : k.header.remotePort ≠ p := fun hkp => hmq (by rw [← hhome.1, hkp, hown])
      show (((s.setPort p x).port _).queue _ = mq) ∧ _
      rw [setMqueue_port, hport _ hkp]
      exact hhome
  · rw [hmsg]
    split
    next => rfl
    next hmq =>
      rw [setMqueue_mqueue, if_neg hmq] at hne
      exact h.shape.waiting mq hne
  · have hq : q ≠ p := by
      rintro rfl
      rw [setMqueue_port, setPort_port_self, hx] at ha
      exact absurd ha Bool.false_ne_true
    rw [setMqueue_port, hport q hq] at ha
    have hqd : ((s.setPort p x).setMqueue (.port p) ⟨[], rs⟩).queued q = s.queued q := by
      have hqo : (s.setPort p x).queueOf q = s.queueOf q := by
        rw [State.queueOf, hport q hq]
        rfl
      rw [queued_setMqueue, hqo, if_neg fun hc => hq (honly q hc), State.queued, hqo]
      rfl
    exact (h.port q ha).of_eq hqd rfl rfl rfl
      (congrArg (fun x : Port => (x.kernel, x.seqno, x.msgcount)) (hport q hq)) rfl

theorem Inv.portDestroy (ha : (s.port p).active) : Inv (ipcPortDestroy s p) [] [] := by
  unfold ipcPortDestroy ipcPortClearReceiver
  simp only [setPort_setPort]
  split
  next q hq =>
    have hu := congrArg pset (move_port (s.setPort p { s.port p with pset := none })
      (.port p) (.pset q) p p)
    rw [setPort_port_self] at hu
    exact (h.psetRemove ha hq).die hu rfl _
  next hq => exact (h.changed (.port p) .rcvPortDied).die hq rfl _

/-! ## One step -/

theorem Inv.setSenders (hx : x.unsent = (s.port p).unsent) : Inv (s.setPort p x) [] [] := by
  refine h.congr (fun _ => rfl) h.shape.waiting (fun q => ?_) rfl
  by_cases hq : q = p
  · subst hq
    rw [setPort_port_self]
    exact hx
  · rw [setPort_port, if_neg hq]

theorem Inv.sendTurn (t : Nat) (hd : Header) (o : SendOption) : Inv (sendTurn s t hd o) [] [] := by
  unfold Queue.sendTurn
  simp only
  split
  next => exact h.ret _ _
  next hact =>
    have ha : (s.port hd.remotePort).active := not_not.mp hact
    split
    next =>
      split
      next hc => exact (h.acceptGone hd (.inr hc)).ret _ _
      next hc =>
        have hslot := h.acceptSlot hd hc
        refine (hslot.deposit ?_).ret _ _
        show (((accept s hd).2.setPort hd.remotePort _).port hd.remotePort).active = true
        rw [setPort_port_self]
        exact ha
    next =>
      split
      next => exact h.ret _ _
      next => exact h.setSenders rfl

theorem Inv.receiveTurn (t : Nat) (mq : Mq) (n : Nat) (tmo : Option Nat) :
    Inv (receiveTurn s t mq n tmo) [] [] := by
  unfold Queue.receiveTurn
  split
  next k ks hm =>
    split
    next => exact h.ret _ _
    next =>
      refine (h.dequeue hm).draw t ?_
      exact (append_assoc ..).symm ▸ List.Perm.refl _
  next hm =>
    split
    next => exact h.ret _ _
    next =>
      have := h.setThreads mq (⟨t, n, tmo⟩ :: (s.mqueue mq).threads) fun _ => hm
      rwa [hm] at this

theorem Inv.pickup (hd : d ∈ s.handed) :
    Inv { s with handed := s.handed.erase d, taken := s.taken ++ [d] } [] [] := by
  have hperm : (s.handed.erase d ++ (s.taken ++ [d])).Perm (s.handed ++ s.taken) := by
    have h1 := (perm_cons_erase hd).append_right s.taken
    have h2 : (s.handed.erase d ++ (s.taken ++ [d])).Perm (d :: (s.handed.erase d ++ s.taken)) := by
      rw [← append_assoc]
      exact perm_append_singleton ..
    exact h2.trans h1.symm
  refine ⟨⟨h.shape.home, h.shape.waiting, (hperm.append_right _).trans h.shape.once,
    h.shape.label⟩, fun p ha => ?_⟩
  exact (h.port p ha).of_eq rfl rfl rfl (deliveriesOf_perm hperm).length_eq rfl rfl

theorem Inv.finish (hd : d ∈ s.taken) : Inv (finishReceive s d) [] [] := by
  have herase := perm_cons_erase hd
  have honce : (s.handed ++ s.taken.erase d ++ (s.received ++ [d])).Perm s.ghost.delivered := by
    refine List.Perm.trans ?_ h.shape.once
    have h1 : (s.taken.erase d ++ (s.received ++ [d])).Perm (s.taken ++ s.received) := by
      rw [← append_assoc]
      exact (perm_append_singleton ..).trans (herase.append_right _).symm
    rw [append_assoc, append_assoc]
    exact h1.append_left _
  have hheld : ∀ q, (deliveriesOf q (s.handed ++ s.taken)).length =
      (deliveriesOf q (s.handed ++ s.taken.erase d)).length + (deliveriesOf q [d]).length := by
    intro q
    have h1 : (s.handed ++ s.taken).Perm (s.handed ++ s.taken.erase d ++ [d]) := by
      rw [append_assoc]
      exact (herase.trans (perm_append_singleton ..).symm).append_left _
    rw [(deliveriesOf_perm h1).length_eq, deliveriesOf_append q (_ ++ _) [d], length_append]
  have hother : ∀ q, d.kmsg.header.remotePort ≠ q → (deliveriesOf q (s.handed ++ s.taken)).length =
      (deliveriesOf q (s.handed ++ s.taken.erase d)).length := by
    intro q hq
    rw [hheld q, deliveriesOf_single, if_neg hq]
    rfl
  unfold finishReceive
  simp only
  split
  next ha =>
    obtain ⟨hac, hps, hker, hseq, hcnt⟩ := releaseSlot_fields (s.port d.kmsg.header.remotePort)
    have hsh := h.shape.setPort hps hac
    refine ⟨⟨hsh.home, hsh.waiting, honce, hsh.label⟩, fun q hq => ?_⟩
    have hold := h.port q ((active_setPort hac q).symm.trans hq)
    show { (s.setPort _ (releaseSlot (s.port d.kmsg.header.remotePort))).view [] [] q with
      held := (deliveriesOf q (s.handed ++ s.taken.erase d)).length }.Ok
    rw [view_setPort hps]
    by_cases hp : d.kmsg.header.remotePort = q
    · have hl := hheld q
      rw [deliveriesOf_single, if_pos hp] at hl
      rw [if_pos hp.symm]
      subst hp
      exact (hold.release hl).of_eq rfl rfl rfl rfl (Prod.ext hker (Prod.ext hseq hcnt)) rfl
    · rw [if_neg (Ne.symm hp)]
      exact hold.of_eq rfl rfl rfl (hother q hp).symm rfl rfl
  next ha =>
    refine ⟨⟨h.shape.home, h.shape.waiting, honce, h.shape.label⟩, fun q hq => ?_⟩
    have hp : d.kmsg.header.remotePort ≠ q := by
      rintro rfl
      exact ha hq
    exact (h.port q hq).of_eq rfl rfl rfl (hother q hp).symm rfl rfl

theorem Inv.step {s' : State} {a : Action} (hs : Step s a s') : Inv s' [] [] := by
  cases hs with
  | send t hd o =>
    unfold ipcMqueueSend
    split
    next hk => exact (h.acceptGone hd (.inl hk)).ret _ _
    next => exact h.sendTurn t hd o
  | resume | sendTimeout => exact (h.setSenders (by rfl)).sendTurn _ _ _
  | sendInterrupt => exact (h.setSenders (by rfl)).ret _ _
  | receive t n tmo _ => exact h.receiveTurn t _ n tmo
  | pickup hd => exact h.pickup (mem_of_find?_eq_some hd)
  | giveUp => exact h.congr (fun _ => rfl) h.shape.waiting (fun _ => rfl) rfl
  | @rcvTimeout mq t r hr =>
    have hwait := h.shape.waiting mq (ne_nil_of_mem (mem_of_find?_eq_some hr))
    exact (h.setThreads mq _ fun _ => hwait).receiveTurn _ _ _ _
  | @rcvInterrupt mq t r hr =>
    have hwait := h.shape.waiting mq (ne_nil_of_mem (mem_of_find?_eq_some hr))
    exact (h.setThreads mq _ fun _ => hwait).ret _ _
  | finish hd => exact h.finish (mem_of_find?_eq_some hd)
  | psetAdd ha hp => exact h.psetAdd ha hp
  | psetRemove hp ha => exact h.psetRemove ha hp
  | psetDestroy q =>
    have hq : Inv { s with psetActive := Function.update s.psetActive q false } [] [] :=
      h.congr (fun _ => rfl) h.shape.waiting (fun _ => rfl) rfl
    exact hq.changed _ _
  | setQlimit => exact h.setSenders rfl
  | portDestroy ha => exact h.portDestroy ha

end

theorem Inv.init (h : Queue.init s) : Inv s [] [] := by
  obtain ⟨hmq, hport, hh, hk, hr, hacc, hdel⟩ := h
  refine ⟨⟨fun mq k hmem => ?_, fun mq _ => ?_, ?_, ?_⟩, fun p _ => ?_⟩
  · rw [hmq] at hmem
    exact absurd hmem not_mem_nil
  · rw [hmq]
  · rw [hh, hk, hr, hdel]
    exact List.Perm.refl _
  · rw [hacc]
    rfl
  · obtain ⟨-, hc, -, -, hlt, h0⟩ := hport p
    have hqd : s.queued p = [] := by rw [State.queued, hmq]; rfl
    have hd : s.delivered p = [] := by rw [State.delivered, hdel]; rfl
    have ha : s.accepted p = [] := by rw [State.accepted, hacc]; rfl
    have hheld : deliveriesOf p (s.handed ++ s.taken) = [] := by rw [hh, hk]; rfl
    refine ⟨fun _ => ?_, ?_, fun i d hi => ?_, ?_⟩
    · simp [State.view, hqd, hd, ha]
    · simp only [State.view, hd, h0, length_nil, Nat.add_zero]
      exact (Nat.mod_eq_of_lt hlt).symm
    · simp [State.view, hd] at hi
    · simp [State.view, hqd, hheld, hc]

theorem Inv.reach {ok : State → Action → Prop} (hr : lts.Reach ok s) : Inv s [] [] :=
  hr.inv (I := fun s => Inv s [] []) (fun _ h => Inv.init h)
    fun _ _ _ hI _ h => hI.step (step_inv h)

/-! ## The property -/

/-- How many times `k` is queued, held by a receiver, or was received. -/
def State.copies (s : State) (k : Kmsg) : Nat :=
  (s.mqueue (s.queueOf k.header.remotePort)).messages.count k +
    ((s.handed ++ s.taken).map (·.kmsg)).count k + (s.received.map (·.kmsg)).count k

theorem count_deliveriesOf (hk : k.header.remotePort = p) :
    ∀ ds : List Delivery, ((deliveriesOf p ds).map (·.kmsg)).count k = (ds.map (·.kmsg)).count k
  | [] => rfl
  | d :: ds => by
    have ih := count_deliveriesOf hk ds
    by_cases hd : d.kmsg.header.remotePort = p
    · simp only [deliveriesOf, filter_cons, hd, decide_true, if_true, map_cons, count_cons] at ih ⊢
      rw [ih]
    · have hne : ¬ d.kmsg = k := by
        rintro rfl
        exact hd hk
      simp only [deliveriesOf, filter_cons, hd, decide_false, Bool.false_eq_true, if_false,
        map_cons, count_cons, beq_iff_eq, hne, Nat.add_zero] at ih ⊢
      exact ih

theorem accepted_nodup (h : Shape s) : s.ghost.accepted.Nodup := by
  have : (s.ghost.accepted.map (·.ikm)).Nodup := h.label ▸ nodup_range
  exact List.Nodup.of_map _ this

theorem Inv.copies_eq_one (h : Inv s [] []) (hk : k ∈ s.ghost.accepted)
    (ha : (s.port k.header.remotePort).active) (hn : ¬ (s.port k.header.remotePort).kernel)
    (hc : ¬ k.header.circular) : s.copies k = 1 := by
  have hmem : k ∈ s.accepted k.header.remotePort := by
    simp [State.accepted, mem_ofPort, hk, hc]
  have hone : (s.accepted k.header.remotePort).count k = 1 :=
    count_eq_one_of_mem (((accepted_nodup h.shape).filter _).filter _) hmem
  have hfifo := (h.port _ ha).fifo hn
  simp only [State.view, ofPort_nil, append_nil] at hfifo
  have hdel : (s.ghost.delivered.map (·.kmsg)).count k =
      ((s.handed ++ s.taken).map (·.kmsg)).count k + (s.received.map (·.kmsg)).count k := by
    rw [← count_append, ← map_append]
    exact ((h.shape.once.map _).count_eq k).symm
  rw [hfifo, count_append, State.delivered, count_deliveriesOf rfl, State.queued, ofPort, count_filter (by simp)] at hone
  rw [State.copies]
  omega

/-- **Exactly-once delivery in order.** In every reachable state: a message
accepted for a live port is queued once in the queue the port is using, or held
by one receiver, or received once (circular messages and those the kernel serves
itself apart); the messages of the port were delivered in the order they were
accepted, the k-th with sequence number k; a member of a set has an empty queue
of its own; and a queue with a waiting receiver is empty. -/
theorem exactly_once_in_order {s : State} (hr : lts.Reach Lib.anyStep s) :
    (∀ k ∈ s.ghost.accepted, (s.port k.header.remotePort).active →
      ¬ (s.port k.header.remotePort).kernel → ¬ k.header.circular →
      s.copies k = 1 ∧ ∀ mq, mq ≠ s.queueOf k.header.remotePort → k ∉ (s.mqueue mq).messages) ∧
    (s.handed ++ s.taken ++ s.received).Perm s.ghost.delivered ∧
    (∀ p, (s.port p).active →
      (¬ (s.port p).kernel → s.accepted p = (s.delivered p).map (·.kmsg) ++ s.queued p) ∧
      ∀ i d, (s.delivered p)[i]? = some d → d.seqno = (s.ghost.seqno0 p + i) % 2 ^ 32) ∧
    (∀ p q, (s.port p).pset = some q → (s.mqueue (.port p)).messages = []) ∧
    (∀ mq, (s.mqueue mq).threads ≠ [] → (s.mqueue mq).messages = []) := by
  have h := Inv.reach hr
  refine ⟨fun k hk ha hn hc => ⟨h.copies_eq_one hk ha hn hc, fun mq hne hm => ?_⟩,
    h.shape.once, fun p ha => ⟨fun hn => ?_, (h.port p ha).drawn⟩, fun p q hq => ?_,
    h.shape.waiting⟩
  · exact hne (h.shape.home mq k hm).1.symm
  · have := (h.port p ha).fifo hn
    simpa only [State.view, ofPort_nil, append_nil] using this
  -- what is in the queue of a port is using that queue, so it is no member
  refine eq_nil_iff_forall_not_mem.mpr fun k hk => ?_
  have hhome := (h.shape.home _ k hk).1
  unfold State.queueOf queue at hhome
  split at hhome
  next hnone =>
    obtain rfl := Mq.port.inj hhome
    rw [hq] at hnone
    exact absurd hnone (by simp)
  next => exact absurd hhome (by simp)

def deliverTwo : List Action :=
  let plain : Header := ⟨0, 24, 24, false, false⟩
  [.send 1 plain ⟨false, none⟩, .send 2 plain ⟨false, none⟩,
   .receive 3 (.pset 0) 100 none, .psetAdd 0 0, .pickup 3]

theorem deliverTwo_runs : (lts.run (quiet 5) deliverTwo).isSome := by decide

theorem exactly_once_in_order_deliverTwo :
    ((lts.run (quiet 5) deliverTwo).get deliverTwo_runs).copies
      ⟨1, ⟨0, 24, 24, false, false⟩⟩ = 1 :=
  ((exactly_once_in_order (Lib.Lts.reach_get (quiet_init 5) deliverTwo_runs)).1 _
    (by decide) (by decide) (by decide) (by decide)).1

def sendCircular : List Action := [.send 1 ⟨0, 24, 24, false, true⟩ ⟨false, none⟩]

theorem sendCircular_runs : (lts.run (quiet 5) sendCircular).isSome := by decide

/-- A circular message is accepted for a live port (`ipc_mqueue_send` returns
`MACH_MSG_SUCCESS`) and is nowhere afterwards. -/
theorem circular_accepted_not_delivered : ∃ s, lts.Reach Lib.anyStep s ∧ ∃ k ∈ s.ghost.accepted,
      (s.port k.header.remotePort).active ∧ ¬ (s.port k.header.remotePort).kernel ∧
      (1, MachMsgReturn.success) ∈ s.returned ∧ s.copies k = 0 :=
  ⟨_, Lib.Lts.reach_get (quiet_init 5) sendCircular_runs, ⟨0, ⟨0, 24, 24, false, true⟩⟩,
    by decide, by decide, by decide, by decide, by decide⟩

/-- **The counts of a port.** In every reachable state `ip_msgcount` of a live port is the
number of its messages that are queued or that a receiver holds and has not returned with, and
`ip_seqno` has counted what was delivered; no message is queued for a dead port. -/
theorem port_counts {s : State} (hr : lts.Reach Lib.anyStep s) :
    (∀ p, (s.port p).active →
      (s.port p).msgcount = (s.queued p).length + (deliveriesOf p (s.handed ++ s.taken)).length ∧
      (s.port p).seqno = (s.ghost.seqno0 p + (s.delivered p).length) % 2 ^ 32) ∧
    ∀ mq, ∀ k ∈ (s.mqueue mq).messages, (s.port k.header.remotePort).active := by
  have h := Inv.reach hr
  refine ⟨fun p ha => ⟨?_, (h.port p ha).seqno⟩, fun mq k hk => (h.shape.home mq k hk).2⟩
  simpa only [State.view, ofPort_nil, length_nil, Nat.zero_add, Nat.add_zero] using (h.port p ha).count

theorem port_counts_deliverTwo :
    (((lts.run (quiet 5) deliverTwo).get deliverTwo_runs).port 0).msgcount = 2 :=
  ((port_counts (Lib.Lts.reach_get (quiet_init 5) deliverTwo_runs)).1 0 (by decide)).1.trans (by decide)

end Mach.Ipc.Queue
