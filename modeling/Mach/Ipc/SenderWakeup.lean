import Mathlib.Tactic.Tauto
import Mach.Ipc.Mqueue

/-!
# Blocked senders and their wakeups

A receive that brings a port under its limit wakes one blocked sender, and the
woken sender is expected to fill the slot. The property is that the slots below
the limit are always spoken for: while somebody is blocked, the queued messages
and the woken senders together reach the limit.

The token is lost in one place. A woken sender whose message is marked circular
passes the limit test, destroys its message and returns without raising
`ip_msgcount` and without waking the next sender. `keepsToken` is the exact
condition on a step; under it the property is an invariant.
-/

namespace Mach.Ipc.Queue

open List State

def Port.Spoken (x : Port) : Prop :=
  x.active → x.blocked ≠ [] → x.qlimit ≤ x.msgcount + x.woken.length

/-- No sender sleeps on a live port while a slot is free and promised to nobody. -/
def NoLostWakeup (s : State) : Prop := ∀ p, (s.port p).Spoken

/-- A step keeps its token unless it resumes a woken sender with a circular
message, under the limit, while others are blocked and no other woken sender or
queued message makes up for the slot. -/
def keepsToken (s : State) : Action → Prop
  | .resume p t => ∀ x, (s.port p).woken.find? (·.thread = t) = some x →
      (s.port p).active → x.header.circular → (s.port p).msgcount < (s.port p).qlimit →
      (s.port p).blocked ≠ [] →
      (s.port p).qlimit < (s.port p).msgcount + (s.port p).woken.length
  | _ => True

/-! ## What the sections do to a port

Giving a message to a queue may draw a sequence number; nothing here depends on
it, so ports are compared up to `unseq`. -/

def Port.unseq (x : Port) : Port := { x with seqno := 0 }

theorem draw_port (s : State) (t : Nat) (k : Kmsg) (p : Nat) :
    ((s.draw t k).2.port p).unseq = (s.port p).unseq := by
  by_cases hp : p = k.header.remotePort
  · subst hp
    simp [State.draw, Port.nextSeqno, Port.unseq]
  · simp [State.draw, setPort_port, hp]

theorem deposit_port (s : State) (mq : Mq) (k : Kmsg) (p : Nat) :
    ((deposit s mq k).port p).unseq = (s.port p).unseq := by
  unfold deposit
  split
  next => simp
  next bad r rest _ => exact draw_port _ r.thread k p

theorem move_port (s : State) (dest source : Mq) (port p : Nat) :
    ((ipcMqueueMove s dest source port).port p).unseq = (s.port p).unseq := by
  unfold ipcMqueueMove
  -- the messages are deposited one after another
  have run : ∀ (ks : List Kmsg) (s : State),
      ((ks.foldl (deposit · dest ·) s).port p).unseq = (s.port p).unseq := by
    intro ks
    induction ks with
    | nil => intro s; rfl
    | cons k ks ih => intro s; rw [foldl_cons, ih, deposit_port]
  rw [run]
  simp

inductive SendEffect (h : Header) (x : Port) : Port → Prop
  | dead : ¬ x.active → SendEffect h x x
  | destroyed : h.circular → SendEffect h x x
  | queued : ¬ h.circular → SendEffect h x x.takeSlot
  | timedOut : x.qlimit ≤ x.msgcount → SendEffect h x x
  | blocks (snd : Sender) : snd.header = h → x.qlimit ≤ x.msgcount →
      SendEffect h x { x with blocked := snd :: x.blocked }

variable {x y : Port} {h : Header} {p : Nat} {s s' : State}

theorem mayPass_of_not {o : SendOption} (hp : ¬ mayPass x h o) : x.qlimit ≤ x.msgcount := by
  simp only [mayPass, Bool.or_eq_true, decide_eq_true_eq, not_or] at hp
  omega

theorem sendTurn_own (s : State) (t : Nat) (h : Header) (o : SendOption) :
    ∃ y, SendEffect h (s.port h.remotePort) y ∧
      ((sendTurn s t h o).port h.remotePort).unseq = y.unseq := by
  unfold sendTurn
  simp only
  split
  next hdead => exact ⟨_, .dead hdead, rfl⟩
  split
  next hpass =>
    split
    next hc => exact ⟨_, .destroyed hc, rfl⟩
    next hc =>
      refine ⟨_, .queued hc, ?_⟩
      rw [ret_port, deposit_port, setPort_port_self]
  next hpass =>
    have hfull := mayPass_of_not hpass
    split
    next => exact ⟨_, .timedOut hfull, rfl⟩
    next => exact ⟨_, .blocks ⟨t, h, o⟩ rfl hfull, by rw [setPort_port_self]⟩

theorem sendTurn_other (s : State) (t : Nat) (h : Header) (o : SendOption) (hp : p ≠ h.remotePort) :
    ((sendTurn s t h o).port p).unseq = (s.port p).unseq := by
  unfold sendTurn
  simp only
  split
  next => rfl
  split
  next =>
    split
    next => rfl
    next => rw [ret_port, deposit_port, setPort_port, if_neg hp, accept_port]
  next =>
    split
    next => rfl
    next => rw [setPort_port, if_neg hp]

theorem receiveTurn_port (s : State) (t : Nat) (mq : Mq) (n : Nat) (tmo : Option Nat) (p : Nat) :
    ((receiveTurn s t mq n tmo).port p).unseq = (s.port p).unseq := by
  unfold receiveTurn
  split
  next k ks _ =>
    split
    · rfl
    · exact draw_port _ t k p
  next => split <;> rfl

/-! ## One step -/

/-- The invariant of one port: the property itself, and that the senders the port
keeps track of are sending to it. -/
structure PortOk (p : Nat) (x : Port) : Prop where
  spoken : x.Spoken
  home : ∀ snd ∈ x.blocked ++ x.woken, snd.header.remotePort = p

theorem PortOk.congr (h : y.unseq = x.unseq) (hx : PortOk p x) : PortOk p y := by
  have hx' : PortOk p x.unseq := ⟨hx.spoken, hx.home⟩
  rw [← h] at hx'
  exact ⟨hx'.spoken, hx'.home⟩

section

variable (hx : PortOk p x)
include hx

theorem PortOk.send (hp : h.remotePort = p) (he : SendEffect h x y) : PortOk p y := by
  cases he with
  | dead | destroyed | timedOut => exact hx
  | queued _ =>
    refine ⟨fun ha hb => ?_, hx.home⟩
    have := hx.spoken ha hb
    simp only [Port.takeSlot]
    omega
  | blocks snd hs hfull =>
    refine ⟨fun _ _ => Nat.le_add_right_of_le hfull, fun z hz => ?_⟩
    rcases mem_cons.mp hz with rfl | hz
    · rw [hs, hp]
    · exact hx.home z hz

theorem PortOk.leave (snd : Sender) : PortOk p { x with blocked := x.blocked.erase snd } := by
  refine ⟨fun ha hb => hx.spoken ha fun hnil => hb ?_, fun z hz => hx.home z ?_⟩
  · show x.blocked.erase snd = []
    rw [hnil]
    rfl
  · rcases mem_append.mp hz with hz | hz
    · exact mem_append_left _ (mem_of_mem_erase hz)
    · exact mem_append_right _ hz

theorem PortOk.releaseSlot : PortOk p (releaseSlot x) := by
  unfold Queue.releaseSlot
  simp only
  split
  next snd rest hb =>
    have hlim : x.active → x.qlimit ≤ x.msgcount + x.woken.length :=
      fun ha => hx.spoken ha (by rw [hb]; exact cons_ne_nil _ _)
    split
    next hlt =>
      refine ⟨fun ha _ => ?_, fun z hz => hx.home z ?_⟩
      · have := hlim ha
        simp only [length_append, length_singleton]
        omega
      · rw [hb]
        simp only [mem_append, mem_cons, not_mem_nil, or_false] at hz ⊢
        tauto
    next hge => exact ⟨fun _ _ => Nat.le_add_right_of_le (Nat.le_of_not_lt hge), hx.home⟩
  next hb => exact ⟨fun _ hne => absurd hb hne, hx.home⟩

theorem PortOk.setQlimit (n : Nat) : PortOk p (ipcPortSetQlimit x n) := by
  unfold ipcPortSetQlimit
  refine ⟨fun ha hb => ?_, fun z hz => hx.home z ?_⟩
  · -- somebody is still blocked, so the loop ran its full count
    have hlen : n - x.qlimit < x.blocked.length := by
      by_contra hle
      exact hb (drop_eq_nil_of_le (Nat.le_of_not_lt hle))
    have := hx.spoken ha (ne_nil_of_length_pos (Nat.zero_lt_of_lt hlen))
    simp only [length_append, length_take]
    omega
  · simp only [mem_append] at hz ⊢
    rcases hz with hz | hz | hz
    · exact .inl (mem_of_mem_drop hz)
    · exact .inr hz
    · exact .inl (mem_of_mem_take hz)

theorem PortOk.rouseAll :
    PortOk p { x with active := false, blocked := [], woken := x.woken ++ x.blocked } := by
  refine ⟨fun ha => absurd ha Bool.false_ne_true, fun z hz => hx.home z ?_⟩
  simp only [nil_append, mem_append] at hz ⊢
  tauto

end

def AllOk (s : State) : Prop := ∀ p, PortOk p (s.port p)

theorem AllOk.congr (h : ∀ p, (s'.port p).unseq = (s.port p).unseq) (hs : AllOk s) : AllOk s' :=
  fun p => (hs p).congr (h p)

theorem AllOk.setPort (hs : AllOk s) (hx : PortOk p x) : AllOk (s.setPort p x) := by
  intro q
  by_cases hq : q = p
  · subst hq
    rw [setPort_port_self]
    exact hx
  · rw [setPort_port, if_neg hq]
    exact hs q

theorem AllOk.sendTurn {t : Nat} {o : SendOption} (hs : ∀ p, p ≠ h.remotePort → PortOk p (s.port p))
    (hown : ∀ y, SendEffect h (s.port h.remotePort) y → PortOk h.remotePort y) :
    AllOk (sendTurn s t h o) := by
  intro p
  by_cases hp : p = h.remotePort
  · subst hp
    obtain ⟨y, hy, he⟩ := sendTurn_own s t h o
    exact (hown y hy).congr he
  · exact (hs p hp).congr (sendTurn_other s t h o hp)

theorem PortOk.resume {snd : Sender} (hx : PortOk p x) (hsnd : snd ∈ x.woken)
    (hkeep : x.active → snd.header.circular → x.msgcount < x.qlimit → x.blocked ≠ [] →
      x.qlimit < x.msgcount + x.woken.length)
    (he : SendEffect snd.header { x with woken := x.woken.erase snd } y) : PortOk p y := by
  have hhome : ∀ z ∈ x.blocked ++ x.woken.erase snd, z.header.remotePort = p := by
    intro z hz
    refine hx.home z ?_
    rcases mem_append.mp hz with hz | hz
    · exact mem_append_left _ hz
    · exact mem_append_right _ (mem_of_mem_erase hz)
  have hlen : (x.woken.erase snd).length = x.woken.length - 1 := length_erase_of_mem hsnd
  have hpos : 0 < x.woken.length := length_pos_of_mem hsnd
  cases he with
  | dead hd => exact ⟨fun ha => absurd ha hd, hhome⟩
  | destroyed hc =>
    refine ⟨fun ha hb => ?_, hhome⟩
    simp only at ha hb ⊢
    by_cases hlt : x.msgcount < x.qlimit
    · have := hkeep ha hc hlt hb
      omega
    · omega
  | queued _ =>
    refine ⟨fun ha hb => ?_, hhome⟩
    have := hx.spoken ha hb
    simp only [Port.takeSlot]
    omega
  | timedOut hfull => exact ⟨fun _ _ => Nat.le_add_right_of_le hfull, hhome⟩
  | blocks z hz hfull =>
    refine ⟨fun _ _ => Nat.le_add_right_of_le hfull, fun w hw => ?_⟩
    rcases mem_cons.mp hw with rfl | hw
    · rw [hz]
      exact hx.home snd (mem_append_right _ hsnd)
    · exact hhome w hw

theorem AllOk.psetRemove (hs : AllOk s) (q p : Nat) : AllOk (ipcPsetRemove s q p) := by
  have hp : PortOk p { s.port p with pset := none } := ⟨(hs p).spoken, (hs p).home⟩
  exact (hs.setPort hp).congr (move_port _ _ _ _)

theorem AllOk.clearReceiver (hs : AllOk s) (p : Nat) : AllOk (ipcPortClearReceiver s p) := by
  unfold ipcPortClearReceiver
  split
  next q _ =>
    have h := hs.psetRemove q p
    exact h.setPort ⟨(h p).spoken, (h p).home⟩
  next =>
    have h : AllOk (ipcMqueueChanged s (.port p) .rcvPortDied) := hs.congr fun _ => rfl
    exact h.setPort ⟨(h p).spoken, (h p).home⟩

theorem AllOk.step {a : Action} (hs : AllOk s) (hk : keepsToken s a) (h : Step s a s') :
    AllOk s' := by
  cases h with
  | send t hd o =>
    unfold ipcMqueueSend
    split
    · exact hs.congr fun _ => rfl
    · exact AllOk.sendTurn (fun p _ => hs p) fun y hy => (hs _).send rfl hy
  | @resume p t x hx =>
    have hmem := mem_of_find?_eq_some hx
    have hp : x.header.remotePort = p := (hs p).home x (mem_append_right _ hmem)
    refine AllOk.sendTurn (fun q hq => ?_) fun y hy => ?_
    · rw [hp] at hq
      rw [setPort_port, if_neg hq]
      exact hs q
    · rw [hp] at hy ⊢
      rw [setPort_port_self] at hy
      exact (hs p).resume hmem (hk x hx) hy
  | @sendTimeout p t x _ =>
    have h' := hs.setPort ((hs p).leave x)
    exact AllOk.sendTurn (fun q _ => h' q) fun y hy => (h' _).send rfl hy
  | @sendInterrupt p t x _ => exact (hs.setPort ((hs p).leave x)).congr fun _ => rfl
  | receive | rcvTimeout => exact hs.congr (receiveTurn_port _ _ _ _ _)
  | pickup | giveUp | rcvInterrupt | psetDestroy => exact hs.congr fun _ => rfl
  | @finish t d _ =>
    unfold finishReceive
    simp only
    split
    · exact (hs.setPort (hs d.kmsg.header.remotePort).releaseSlot).congr fun _ => rfl
    · exact hs.congr fun _ => rfl
  | @psetAdd q p =>
    have hp : PortOk p { s.port p with pset := some q } := ⟨(hs p).spoken, (hs p).home⟩
    exact (hs.setPort hp).congr (move_port _ _ _ _)
  | psetRemove => exact hs.psetRemove _ _
  | @setQlimit p n => exact hs.setPort ((hs p).setQlimit n)
  | @portDestroy p =>
    have hc := hs.clearReceiver p
    exact (hc.setPort (hc p).rouseAll).congr fun _ => rfl

theorem keepsToken_of_noLostWakeup {a : Action} (hs : AllOk s) (h : Step s a s')
    (hw : NoLostWakeup s') : keepsToken s a := by
  cases h with
  | @resume p t x hx =>
    intro x' hx' hact hcirc hlt hne
    obtain rfl : x = x' := Option.some.inj (hx.symm.trans hx')
    have hmem := mem_of_find?_eq_some hx
    have hp : x.header.remotePort = p := (hs p).home x (mem_append_right _ hmem)
    have hport : (sendTurn (s.setPort p { s.port p with woken := (s.port p).woken.erase x })
        t x.header x.option).port p = { s.port p with woken := (s.port p).woken.erase x } := by
      unfold Queue.sendTurn
      simp [hp, hact, hcirc, mayPass, hlt]
    have hbad := hw p
    rw [hport] at hbad
    have := hbad hact hne
    have hlen : ((s.port p).woken.erase x).length = (s.port p).woken.length - 1 :=
      length_erase_of_mem hmem
    have hpos : 0 < (s.port p).woken.length := length_pos_of_mem hmem
    simp only at this
    omega
  | _ => exact trivial

theorem AllOk.init (h : Queue.init s) : AllOk s := by
  intro p
  obtain ⟨-, -, hb, hw, -⟩ := h.2.1 p
  exact ⟨fun _ hne => absurd hb hne, by simp [hb, hw]⟩

theorem AllOk.reach (hr : lts.Reach keepsToken s) : AllOk s :=
  hr.inv (fun _ h => AllOk.init h) fun _ _ _ hI hok h => hI.step hok (step_inv h)

/-! ## The property -/

/-- **No lost sender wakeup**, exactly as far as it holds: in a run that keeps
its tokens every state has the property, and the next step keeps the property
just when it keeps its token. -/
theorem noLostWakeup_iff_keepsToken {s : State} (hr : lts.Reach keepsToken s) : NoLostWakeup s ∧
    ∀ a s', step s a = some s' → (NoLostWakeup s' ↔ keepsToken s a) := by
  have hs := AllOk.reach hr
  refine ⟨fun p => (hs p).spoken, fun a s' h => ⟨fun hw => ?_, fun hk p => ?_⟩⟩
  · exact keepsToken_of_noLostWakeup hs (step_inv h) hw
  · exact (hs.step hk (step_inv h) p).spoken

/-- Empty queues and live ports that admit `qlimit` messages each. -/
def quiet (qlimit : Nat) : State where
  mqueue _ := ⟨[], []⟩
  port _ := ⟨true, false, none, 0, 0, qlimit, [], []⟩
  psetActive _ := true
  handed := []
  taken := []
  received := []
  roused := []
  returned := []
  ghost := ⟨fun _ => 0, [], []⟩

theorem quiet_init (qlimit : Nat) : init (quiet qlimit) := by
  simp [init, quiet]

def keptToken : List Action :=
  let plain : Header := ⟨0, 24, 24, false, false⟩
  [.send 1 plain ⟨false, none⟩, .send 2 plain ⟨false, none⟩,
   .receive 4 (.port 0) 100 none, .finish 4, .resume 0 2]

theorem keptToken_runs : (lts.run (quiet 1) keptToken).isSome := by decide

theorem keptToken_ok : lts.okRun keepsToken (quiet 1) keptToken := by
  refine ⟨trivial, trivial, trivial, trivial, fun x hx _ hc => ?_, trivial⟩
  obtain rfl : _ = x := Option.some.inj hx
  exact absurd hc (by decide)

theorem noLostWakeup_keptToken : NoLostWakeup ((lts.run (quiet 1) keptToken).get keptToken_runs) :=
  (noLostWakeup_iff_keepsToken
    (.run keptToken (.start (quiet_init 1)) keptToken_ok (Option.some_get _).symm)).1

def lostToken : List Action :=
  let plain : Header := ⟨0, 24, 24, false, false⟩
  [.send 1 plain ⟨false, none⟩, .send 2 plain ⟨false, none⟩,
   .send 3 { plain with circular := true } ⟨false, none⟩,
   .receive 4 (.port 0) 100 none, .finish 4, .resume 0 3]

theorem lostToken_runs : (lts.run (quiet 1) lostToken).isSome := by decide

/-- Thread 2 is left blocked on an empty queue with nobody woken. -/
theorem lostToken_stuck : ∃ s, lts.Reach Lib.anyStep s ∧ ¬ NoLostWakeup s := by
  refine ⟨_, Lib.Lts.reach_get (quiet_init 1) lostToken_runs, fun h => ?_⟩
  exact absurd (h 0 (by decide) (by decide)) (by decide)

end Mach.Ipc.Queue
