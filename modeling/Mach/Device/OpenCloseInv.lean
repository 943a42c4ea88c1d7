import Mach.Device.OpenClose
import Mach.Lib.Pool

/-!
# Opening and closing are well bracketed

The call that has made the device busy goes on alone; where it is tells the stage of the
device (`Fits`). So the log is in order as long as only an open device is closed, or one
that is being closed.
-/

namespace Mach.Device.OpenClose

open Mach.Lib EventLog List Option Call Event MachDevice Stage Pool

abbrev MachDevice.At (s : MachDevice) (q : Stage) : Prop := after Stage.next .closed s.log = some q

/-! ## What is to hold -/

/-- `d_open` succeeds. -/
def Event.opens : Event → Bool
  | .openEnd ok => ok
  | _ => false

/-- `d_close` is called. -/
def Event.closes : Event → Bool
  | .closeStart => true
  | _ => false

def Event.enters : Event → Bool
  | .openStart | .closeStart => true
  | _ => false

def Event.leaves : Event → Bool
  | .openEnd _ | .closeEnd => true
  | _ => false

def Event.allocs : Event → Bool
  | .portAlloc _ => true
  | _ => false

def Event.deallocs : Event → Bool
  | .portDealloc _ => true
  | _ => false

structure Bracketed (s : MachDevice) : Prop where
  order : ∃ q, s.At q
  /-- Successful calls of `d_open` and calls of `d_close` alternate. -/
  driver : Alternates Event.opens Event.closes false s.log
  alone : Alternates Event.enters Event.leaves false s.log
  port : Alternates Event.allocs Event.deallocs false s.log
  count : s.state = .opened → 0 < s.openCount ∧ s.openCount = s.granted - s.closed
  excl : s.excl = true → s.openCount ≤ 1
  asleep : .openAsleep ∈ s.calls → s.ioWait = true ∧ (s.state = .opening ∨ s.state = .closing)

/-- A close that finds the device not open touches neither the port nor the driver, and
returns. -/
def NoopClose (s : MachDevice) (i : Nat) (ok : Bool) : Prop :=
  s.calls[i]? = some .closeLock → s.state ≠ .opened →
    ∃ s', step s (.call i ok) = some s' ∧ s'.calls = s.calls.set i .done ∧ s'.state = s.state ∧
      s'.log = s.log ∧ s'.port = s.port

def Stage.isOpened : Stage → Bool
  | .opened _ | .deallocated => true
  | _ => false

def Stage.inDriver : Stage → Bool
  | .opening _ | .closing => true
  | _ => false

def Stage.hasPort : Stage → Bool
  | .allocated _ | .opening _ | .opened _ | .failed _ => true
  | _ => false

inductive Stage.Next : Stage → Event → Stage → Prop
  | alloc (p : Nat) : Next .closed (.portAlloc p) (.allocated p)
  | openStart (p : Nat) : Next (.allocated p) .openStart (.opening p)
  | opened (p : Nat) : Next (.opening p) (.openEnd true) (.opened p)
  | failed (p : Nat) : Next (.opening p) (.openEnd false) (.failed p)
  | reset (p : Nat) : Next (.failed p) (.portDealloc (some p)) .closed
  | dealloc (p : Nat) : Next (.opened p) (.portDealloc (some p)) .deallocated
  | closeStart : Next .deallocated .closeStart .closing
  | closed : Next .closing .closeEnd .closed

theorem Stage.next_cases {q q' : Stage} {e : Event} (h : q.next e = some q') : q.Next e q' := by
  unfold Stage.next at h
  split at h
  case h_5 p p' | h_6 p p' =>
    obtain ⟨rfl, ⟨⟩⟩ := ite_none_right_eq_some.mp h
    constructor
  all_goals first
    | cases h; constructor
    | cases h

section

variable {s : MachDevice} {q : Stage}

theorem driver_of_at (h : s.At q) : Alternates Event.opens Event.closes false s.log := by
  refine alternates_of_after (φ := isOpened) ?_ ?_ ?_ s.log .closed q h <;>
  · intro q e q' he
    cases next_cases he <;> simp [opens, closes, isOpened]

theorem alone_of_at (h : s.At q) : Alternates Event.enters Event.leaves false s.log := by
  refine alternates_of_after (φ := inDriver) ?_ ?_ ?_ s.log .closed q h <;>
  · intro q e q' he
    cases next_cases he <;> simp [enters, leaves, inDriver]

theorem port_of_at (h : s.At q) : Alternates Event.allocs Event.deallocs false s.log := by
  refine alternates_of_after (φ := hasPort) ?_ ?_ ?_ s.log .closed q h <;>
  · intro q e q' he
    cases next_cases he <;> simp [allocs, deallocs, hasPort]

end

/-! ## The invariant -/

def Call.owns : Call → Bool
  | .openLock | .openAsleep | .closeLock | .done => false
  | _ => true

def State.busy : State → Bool
  | .opening | .closing => true
  | _ => false

def Fits (st : State) (port : Option Nat) (q : Stage) : Call → Prop
  | .openLock | .closeLock | .done => True
  | .openAsleep => st.busy = true
  | .openPort | .openReset => st = .opening ∧ q = .closed
  | .openDriver => st = .opening ∧ ∃ p, port = some p ∧ q = .allocated p
  | .openWait => st = .opening ∧ ∃ p, port = some p ∧ q = .opening p
  | .openDone => st = .opening ∧ ∃ p, port = some p ∧ q = .opened p
  | .openFailed => st = .opening ∧ ∃ p, port = some p ∧ q = .failed p
  | .closePort => st = .closing ∧ ∃ p, port = some p ∧ q = .opened p
  | .closeDriver => st = .closing ∧ q = .deallocated
  | .closeWait => st = .closing ∧ q = .closing
  | .closeDone => st = .closing ∧ q = .closed

structure Ok (s : MachDevice) (q : Stage) : Prop where
  log : s.At q
  owner : s.calls.countP Call.owns = s.state.busy.toNat
  fits : ∀ c ∈ s.calls, Fits s.state s.port q c
  wait : .openAsleep ∈ s.calls → s.ioWait = true
  init : s.state = .init → q = .closed
  opened : s.state = .opened → ∃ p, s.port = some p ∧ q = .opened p
  count : s.state = .opened → 0 < s.openCount ∧ s.openCount = s.granted - s.closed
  bounds : -32768 ≤ s.openCount ∧ s.openCount ≤ 32767
  excl : s.excl = true → s.openCount ≤ 1

variable {st : State} {port : Option Nat} {n : Int}

theorem Fits.of_not_owns {st' : State} {port' : Option Nat} {q q' : Stage} {c : Call}
    (h : Fits st port q c) (ho : c.owns = false) (hst : st.busy = true → st'.busy = true) :
    Fits st' port' q' c := by
  cases c with
  | openLock | closeLock | done => trivial
  | openAsleep => exact hst h
  | _ => cases ho

variable {s s' : MachDevice} {q q' : Stage} {i : Nat} {c c' : Call} {ok : Bool}

theorem Fits.busy (h : Fits st port q c) (ho : c.owns = true) : st.busy = true := by
  cases c with
  | openLock | closeLock | done | openAsleep => cases ho
  | _ =>
    rw [h.1]
    rfl

theorem State.ne_of_busy (h : st.busy = true) : st ≠ .init ∧ st ≠ .opened := by
  cases st with
  | opening | closing => exact ⟨nofun, nofun⟩
  | init | opened => cases h

theorem Ok.move (h : Ok s q) (hc : s.calls[i]? = some c) {n : Nat} {log : List Event}
    (hlog : after Stage.next .closed log = some q') (hfits : Fits s.state port q' c')
    (ho : c.owns = true := by rfl) (ho' : c'.owns = true := by rfl) :
    Ok ({ s with port := port, nextPort := n, log := log }.goto i c') q' := by
  have hmem := mem_of_getElem? hc
  have hbusy := (h.fits c hmem).busy ho
  have hone : s.calls.countP owns = 1 := by rw [h.owner, hbusy]; rfl
  have hne := State.ne_of_busy hbusy
  constructor
  case log => exact hlog
  case owner =>
    have hcount := countP_set hc owns c'
    rw [ho, ho', h.owner] at hcount
    exact Nat.add_right_cancel hcount
  case fits =>
    intro d hd
    cases hod : d.owns with
    | true =>
      rw [eq_of_mem_set hc ho hone hd hod]
      exact hfits
    | false =>
      rcases mem_or_eq_of_mem_set hd with hd | rfl
      · exact (h.fits d hd).of_not_owns hod id
      · rw [ho'] at hod
        cases hod
  case wait =>
    intro hd
    rcases mem_or_eq_of_mem_set hd with hd | rfl
    · exact h.wait hd
    · cases ho'
  case init => exact fun hst => absurd hst hne.1
  case opened => exact fun hst => absurd hst hne.2
  case count => exact h.count
  case bounds => exact h.bounds
  case excl => exact h.excl

theorem not_asleep_become (h : .openAsleep ∈ s.calls → s.ioWait = true) :
    .openAsleep ∉ (s.become st).calls := by
  unfold become
  by_cases hw : s.ioWait = true
  · rw [if_pos hw]
    intro hd
    obtain ⟨d, -, hd⟩ := List.mem_map.mp hd
    cases d <;> cases hd
  · rw [if_neg hw]
    exact fun hd => hw (h hd)

theorem countP_become (s : MachDevice) (st : State) :
    (s.become st).calls.countP Call.owns = s.calls.countP Call.owns := by
  unfold become
  by_cases hw : s.ioWait = true
  · rw [if_pos hw]
    exact countP_map_of_eq (fun c => by cases c <;> rfl) _
  · rw [if_neg hw]

theorem Ok.finish (h : Ok s q) (hc : s.calls[i]? = some c) (ho : c.owns = true)
    (hst : st.busy = false) {g k : Nat} (hinit : st = .init → q = .closed)
    (hopened : st = .opened → ∃ p, s.port = some p ∧ q = .opened p)
    (hcount : st = .opened → 0 < n ∧ n = g - k) (hbounds : -32768 ≤ n ∧ n ≤ 32767)
    (hexcl : s.excl = true → n ≤ 1) :
    Ok (({ s with openCount := n, granted := g, closed := k }.goto i .done).become st) q := by
  have hbusy := (h.fits c (mem_of_getElem? hc)).busy ho
  have hone := h.owner
  rw [hbusy] at hone
  have hnone : (s.calls.set i .done).countP owns = 0 := by
    have hset := countP_set hc owns .done
    rw [ho, hone] at hset
    exact Nat.add_right_cancel hset
  -- the calls do not depend on the counts
  have hno : .openAsleep ∉ ((s.goto i .done).become st).calls := by
    apply not_asleep_become
    intro hd
    rcases mem_or_eq_of_mem_set hd with hd | hd
    · exact h.wait hd
    · cases hd
  have howner : ((s.goto i .done).become st).calls.countP owns = 0 :=
    (countP_become _ st).trans hnone
  constructor
  case log => exact h.log
  case owner => exact howner.trans (congrArg Bool.toNat hst).symm
  case fits =>
    intro d hd
    have hod : d.owns = false := Bool.eq_false_iff.mpr (countP_eq_zero.mp howner d hd)
    cases d with
    | openAsleep => exact absurd hd hno
    | openLock | closeLock | done => trivial
    | _ => cases hod
  case wait => exact fun hd => absurd hd hno
  case init => exact hinit
  case opened => exact hopened
  case count => exact hcount
  case bounds => exact hbounds
  case excl => exact hexcl

/-! ## The steps -/

/-- The steps that keep to the protocol: what is closed is open, or is being closed, and
`open_count` is not wrapped around, upwards or in a device for exclusive use. -/
def Proper (s : MachDevice) : Act → Prop
  | .call i _ =>
    (s.calls[i]? = some .closeLock →
      (s.state = .opened ∨ s.state = .closing) ∧ (s.excl = true → -32768 < s.openCount)) ∧
    (s.calls[i]? = some .openLock → s.state = .opened → s.excl = false → s.openCount < 32767)
  | _ => True

theorem short_eq (h : -32768 ≤ n ∧ n ≤ 32767) : short n = n := by
  exact Int.bmod_eq_of_le (by omega) (by omega)

theorem short_bounds (n : Int) : -32768 ≤ short n ∧ short n ≤ 32767 := by
  unfold short
  have hlow : -(((65536 : Nat) : Int) / 2) ≤ Int.bmod n 65536 := Int.le_bmod (by decide)
  have hhigh : Int.bmod n 65536 < (((65536 : Nat) : Int) + 1) / 2 := Int.bmod_lt (by decide)
  omega

section

variable (h : Ok s q)
include h

theorem Ok.start (ho : c.owns = false) (hfits : Fits s.state s.port q c) (hne : c ≠ .openAsleep) :
    Ok { s with calls := s.calls ++ [c] } q := by
  refine ⟨h.log, ?_, Pool.forall_mem_append h.fits hfits, ?_, h.init, h.opened, h.count, h.bounds,
    h.excl⟩
  · rw [Pool.countP_append, ho]
    exact h.owner
  · intro hd
    rcases mem_append.mp hd with hd | hd
    · exact h.wait hd
    · exact absurd (mem_singleton.mp hd).symm hne

section

variable (hc : s.calls[i]? = some c) (ho : c.owns = false)
include hc ho

theorem Ok.set (c' : Call) (ho' : c'.owns = false)
    (hfits : Fits s.state s.port q c') (hwait : c' = .openAsleep → s.ioWait = true) :
    Ok (s.goto i c') q := by
  refine ⟨h.log, ?_, forall_mem_set h.fits hfits i, ?_, h.init, h.opened, h.count, h.bounds,
    h.excl⟩
  · have hcount := countP_set hc owns c'
    rw [ho, ho', h.owner] at hcount
    exact hcount
  · intro hd
    rcases mem_or_eq_of_mem_set hd with hd | hd
    · exact h.wait hd
    · exact hwait hd.symm

theorem Ok.done : Ok (s.goto i .done) q :=
  h.set hc ho .done rfl trivial nofun

theorem Ok.acquire (c' : Call)
    (ho' : c'.owns = true) (hidle : s.state.busy = false) (hst : st.busy = true)
    (hfits : Fits st s.port q c') : Ok ({ s with state := st }.goto i c') q := by
  have hnone := h.owner
  rw [hidle] at hnone
  have hne := State.ne_of_busy hst
  constructor
  case log => exact h.log
  case owner =>
    have hcount := countP_set hc owns c'
    rw [ho, ho', hnone] at hcount
    exact hcount.trans (congrArg Bool.toNat hst).symm
  case fits =>
    refine forall_mem_set (fun d hd => ?_) hfits i
    have hod : d.owns = false := Bool.eq_false_iff.mpr (countP_eq_zero.mp hnone d hd)
    exact (h.fits d hd).of_not_owns hod fun hb => by rw [hidle] at hb; cases hb
  case wait =>
    intro hd
    rcases mem_or_eq_of_mem_set hd with hd | rfl
    · exact h.wait hd
    · cases ho'
  case init => exact fun h0 => absurd h0 hne.1
  case opened => exact fun h0 => absurd h0 hne.2
  case count => exact fun h0 => absurd h0 hne.2
  case bounds => exact h.bounds
  case excl => exact h.excl

end

theorem Ok.recount {g k : Nat} (hcount : s.state = .opened → 0 < n ∧ n = g - k)
    (hbounds : -32768 ≤ n ∧ n ≤ 32767) (hexcl : s.excl = true → n ≤ 1) :
    Ok { s with openCount := n, granted := g, closed := k } q :=
  ⟨h.log, h.owner, h.fits, h.wait, h.init, h.opened, hcount, hbounds, hexcl⟩

theorem Ok.waiting : Ok { s with ioWait := true } q :=
  ⟨h.log, h.owner, h.fits, fun _ => rfl, h.init, h.opened, h.count, h.bounds, h.excl⟩

theorem Ok.sleep (hc : s.calls[i]? = some .openLock) (hbusy : s.state.busy = true) :
    Ok ({ s with ioWait := true }.goto i .openAsleep) q :=
  h.waiting.set hc rfl .openAsleep rfl hbusy fun _ => rfl

theorem Ok.openLock (hc : s.calls[i]? = some .openLock)
    (hlt : s.state = .opened → s.excl = false → s.openCount < 32767) : Ok (s.openLock i) q := by
  unfold MachDevice.openLock
  split
  next hst => exact h.sleep hc (by rw [hst]; rfl)
  next hst => exact h.sleep hc (by rw [hst]; rfl)
  next hst =>
    split
    next => exact h.done hc rfl
    next hx =>
      have hlt := hlt hst (Bool.eq_false_iff.mpr hx)
      obtain ⟨hpos, hcount⟩ := h.count hst
      have hshort : short (s.openCount + 1) = s.openCount + 1 := short_eq (by omega)
      have hok : Ok { s with openCount := short (s.openCount + 1), granted := s.granted + 1 } q := by
        exact h.recount (fun _ => by omega) (by omega) fun hx' => absurd hx' hx
      exact hok.done hc rfl
  next hst =>
    have hidle : s.state.busy = false := by rw [hst]; rfl
    exact h.acquire hc rfl .openPort rfl hidle rfl ⟨rfl, h.init hst⟩

theorem Ok.closeLock (hc : s.calls[i]? = some .closeLock)
    (hst : s.state = .opened ∨ s.state = .closing) (hgt : s.excl = true → -32768 < s.openCount) :
    Ok (s.closeLock i) q := by
  -- the count is right when the device stays open, and does not matter otherwise
  have hcount : ∀ {s1 : MachDevice}, Ok s1 q → s1.excl = s.excl →
      (s1.state = .opened → s.state = .opened ∧ 0 < short (s.openCount - 1)) →
      Ok { s1 with openCount := short (s.openCount - 1), granted := s.granted
                   closed := s.closed + 1 } q := by
    intro s1 h1 hx1 hn
    have hbounds := h.bounds
    refine h1.recount (fun ho => ?_) (short_bounds _) fun hx => ?_
    · obtain ⟨ho, hpos⟩ := hn ho
      have hc := h.count ho
      rw [short_eq (by omega)] at hpos ⊢
      omega
    · rw [hx1] at hx
      have hle := h.excl hx
      have := hgt hx
      rw [short_eq (by omega)]
      omega
  unfold MachDevice.closeLock
  dsimp only
  split
  next hpos => exact (hcount h rfl fun ho => ⟨ho, hpos⟩).done hc rfl
  next hpos =>
    split
    next hcl =>
      have hcl : s.state = .closing := hcl
      have hok : Ok { s with openCount := short (s.openCount - 1), closed := s.closed + 1 } q := by
        refine hcount h rfl fun ho => ?_
        rw [hcl] at ho
        cases ho
      exact hok.done hc rfl
    next hcl =>
      have ho : s.state = .opened := hst.resolve_right hcl
      have hidle : s.state.busy = false := by rw [ho]; rfl
      exact hcount (h.acquire hc rfl .closePort rfl hidle rfl ⟨rfl, h.opened ho⟩) rfl nofun

theorem Ok.dealloc {p : Nat} (hp : s.port = some p) (hq : q.next (.portDealloc (some p)) = some q') :
    s.portDealloc.At q' := by
  rw [← hp] at hq
  exact after_append h.log hq

theorem Ok.callStep (hc : s.calls[i]? = some c) (hok : Proper s (.call i ok))
    (hs : callStep s i ok c = some s') : ∃ q', Ok s' q' := by
  have hfits := h.fits c (mem_of_getElem? hc)
  cases c with
  | openLock =>
    cases hs
    exact ⟨q, h.openLock hc (hok.2 hc)⟩
  | closeLock =>
    cases hs
    exact ⟨q, h.closeLock hc (hok.1 hc).1 (hok.1 hc).2⟩
  | openAsleep | done => cases hs
  | openPort =>
    obtain ⟨hst, rfl⟩ := hfits
    cases ok with
    | true =>
      cases hs
      exact ⟨_, h.move hc (after_append h.log rfl) ⟨hst, _, rfl, rfl⟩⟩
    | false =>
      cases hs
      exact ⟨_, h.move hc h.log ⟨hst, rfl⟩⟩
  | openDriver =>
    obtain ⟨hst, p, hp, rfl⟩ := hfits
    cases hs
    exact ⟨_, h.move hc (after_append h.log rfl) ⟨hst, p, hp, rfl⟩⟩
  | openWait =>
    obtain ⟨hst, p, hp, rfl⟩ := hfits
    cases hs
    cases ok with
    | true | false => exact ⟨_, h.move hc (after_append h.log rfl) ⟨hst, p, hp, rfl⟩⟩
  | openDone =>
    obtain ⟨-, p, hp, rfl⟩ := hfits
    cases hs
    exact ⟨_, h.finish hc rfl rfl nofun (fun _ => ⟨p, hp, rfl⟩)
      (fun _ => by omega) (by omega) fun _ => by omega⟩
  | openFailed | closePort =>
    obtain ⟨hst, p, hp, rfl⟩ := hfits
    cases hs
    exact ⟨_, h.move hc (h.dealloc hp (if_pos rfl)) ⟨hst, rfl⟩⟩
  | closeDriver | closeWait =>
    obtain ⟨hst, rfl⟩ := hfits
    cases hs
    exact ⟨_, h.move hc (after_append h.log rfl) ⟨hst, rfl⟩⟩
  | openReset | closeDone =>
    obtain ⟨-, rfl⟩ := hfits
    cases hs
    exact ⟨_, h.finish hc rfl rfl (fun _ => rfl) nofun nofun h.bounds h.excl⟩

theorem Ok.step {a : Act} (hok : Proper s a) (hs : step s a = some s') : ∃ q', Ok s' q' := by
  cases a with
  | startOpen | startClose =>
    cases hs
    exact ⟨q, h.start rfl trivial nofun⟩
  | call i ok =>
    obtain ⟨c, hc, hs⟩ := bind_eq_some_iff.mp hs
    exact h.callStep hc hok hs
  | interrupt i =>
    obtain ⟨hc, ⟨⟩⟩ := ite_none_right_eq_some.mp hs
    exact ⟨q, h.set hc rfl .openLock rfl trivial nofun⟩

end

theorem ok_device (excl : Bool) : Ok (device excl) .closed := by
  refine ⟨rfl, rfl, fun c hc => ?_, fun hc => ?_, fun _ => rfl, fun h => ?_, fun h => ?_,
    (by decide : -32768 ≤ (0 : Int) ∧ (0 : Int) ≤ 32767), fun _ => (by decide : (0 : Int) ≤ 1)⟩
  · cases hc
  · cases hc
  · cases h
  · cases h

theorem ok_of_reach (h : lts.Reach Proper s) : ∃ q, Ok s q := by
  apply Lts.Reach.inv _ _ h
  · rintro _ ⟨excl, rfl⟩
    exact ⟨.closed, ok_device excl⟩
  · rintro s a s' ⟨q, hq⟩ hok hs
    exact hq.step hok hs

/-! ## The bracketing -/

theorem noopClose_of_proper (h : Proper s (.call i ok)) : NoopClose s i ok := by
  intro hc hne
  have hst := (h.1 hc).1.resolve_left hne
  refine ⟨s.closeLock i, by rw [step, hc]; rfl, ?_⟩
  unfold MachDevice.closeLock
  simp only [hst, if_true]
  split
  next => exact ⟨rfl, rfl, rfl, rfl⟩
  next => exact ⟨rfl, rfl, rfl, rfl⟩

theorem Ok.bracketed (h : Ok s q) : Bracketed s := by
  refine ⟨⟨q, h.log⟩, driver_of_at h.log, alone_of_at h.log, port_of_at h.log, h.count, h.excl,
    fun hd => ⟨h.wait hd, ?_⟩⟩
  have hbusy : s.state.busy = true := h.fits _ hd
  cases hst : s.state with
  | opening => exact .inl rfl
  | closing => exact .inr rfl
  | init | opened =>
    rw [hst] at hbusy
    cases hbusy

/-- In a run in which only open devices are closed, and such as are being closed, and in
which the count stays in its range, opening and closing are well bracketed. -/
theorem open_close_bracketed (h : lts.Reach Proper s) :
    Bracketed s ∧ ∀ i ok, Proper s (.call i ok) → NoopClose s i ok := by
  obtain ⟨q, hq⟩ := ok_of_reach h
  exact ⟨hq.bracketed, fun i ok hok => noopClose_of_proper hok⟩

instance (s : MachDevice) (a : Act) : Decidable (Proper s a) :=
  match a with
  | .call i _ => inferInstanceAs (Decidable ((s.calls[i]? = some .closeLock →
      (s.state = .opened ∨ s.state = .closing) ∧ (s.excl = true → -32768 < s.openCount)) ∧
    (s.calls[i]? = some .openLock → s.state = .opened → s.excl = false → s.openCount < 32767)))
  | .startOpen | .startClose | .interrupt _ => inferInstanceAs (Decidable True)

def openClose : List Act :=
  .startOpen :: List.replicate 5 (.call 0 true) ++ .startClose :: List.replicate 5 (.call 1 true)

theorem openClose_bracketed : ∃ s, lts.run (device false) openClose = some s ∧ Bracketed s := by
  have hrun : (lts.run (device false) openClose).map (·.state) = some .init := by decide
  obtain ⟨s, hs, -⟩ := map_eq_some_iff.mp hrun
  have hok : lts.okRun Proper (device false) openClose := by decide
  exact ⟨s, hs, (open_close_bracketed (.run _ (.start ⟨false, rfl⟩) hok hs)).1⟩

/-- A device that is closed once more than it has been opened: its port is deallocated
again, and its driver closes again what is not open. -/
theorem closeTwice_not_bracketed : ∃ s, lts.Reach anyStep s ∧ ¬ Bracketed s := by
  have hrun : (lts.run (device false)
      (openClose ++ .startClose :: List.replicate 3 (.call 2 true))).map (·.log) =
      some [.portAlloc 0, .openStart, .openEnd true, .portDealloc (some 0), .closeStart,
        .closeEnd, .portDealloc (some 0), .closeStart] := by decide
  obtain ⟨s, hs, hlog⟩ := map_eq_some_iff.mp hrun
  refine ⟨s, .run _ (.start ⟨false, rfl⟩) (Lts.okRun_any _ _ _) hs, fun h => ?_⟩
  obtain ⟨q, hq⟩ := h.order
  rw [MachDevice.At, hlog] at hq
  cases hq

end Mach.Device.OpenClose
