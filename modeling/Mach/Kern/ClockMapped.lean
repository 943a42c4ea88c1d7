import Mach.Kern.Clock

/-!
# Reading the mapped time

`update_mapped_time` writes a time into a page that readers have mapped: the copy of the
seconds first, then the nanoseconds, then the seconds. `read_mapped_time` loads the seconds and
the nanoseconds and begins anew while the copy of the seconds is another. There is no lock and
no sequence number; each load and each store is a step of its own, of one writer and one reader.
The fields for 32-bit readers, which are written beside these, are left out.

The clock shows the time of an update from the store of its nanoseconds on. What a read has
loaded lies between the seconds it has seen and the copy it compares them with, and both only
grow.
-/

namespace Mach.Kern.MachClock.Mapped

open Lib List

inductive Writer
  | idle
  | checked (time : TimeValue64)
  | stored (time : TimeValue64)
deriving DecidableEq

inductive Reader
  | idle
  | again
  | loaded (seconds : Int)
  | full (seconds nanoseconds : Int)
  | done (time : TimeValue64) (during : List TimeValue64)
deriving DecidableEq

structure State where
  /-- `mtime->check_seconds64`. -/
  checkSeconds : Int
  /-- `mtime->time_value`. -/
  value : TimeValue64
  writer : Writer
  reader : Reader
  shown : TimeValue64
  during : List TimeValue64
deriving DecidableEq

inductive Action
  /-- `update_mapped_time` begins, with a time that is not before the last one. -/
  | update (time : TimeValue64)
  | write
  | read

/-- The next store of `update_mapped_time`. -/
def write (s : State) : Option State :=
  match s.writer with
  | .idle => none
  | .checked t => some { s with
      value := { s.value with nanoseconds := t.nanoseconds }
      writer := .stored t
      shown := t
      during := t :: s.during }
  | .stored t => some { s with value := { s.value with seconds := t.seconds }, writer := .idle }

/-- The next load of `read_mapped_time`. -/
def read (s : State) : State :=
  match s.reader with
  | .idle | .done .. => { s with reader := .loaded s.value.seconds, during := [s.shown] }
  | .again => { s with reader := .loaded s.value.seconds }
  | .loaded sec => { s with reader := .full sec s.value.nanoseconds }
  | .full sec nsec =>
    { s with reader := if sec ≠ s.checkSeconds then .again else .done ⟨sec, nsec⟩ s.during }

def step (s : State) : Action → Option State
  | .update t =>
    if s.writer = .idle ∧ (s.shown.seconds < t.seconds ∨
        s.shown.seconds = t.seconds ∧ s.shown.nanoseconds ≤ t.nanoseconds) then
      some { s with checkSeconds := t.seconds, writer := .checked t }
    else none
  | .write => write s
  | .read => some (read s)

structure Quiet (s : State) : Prop where
  value : s.value = s.shown
  check : s.checkSeconds = s.shown.seconds
  idle : s.writer = .idle ∧ s.reader = .idle

def system : Lts State Action := ⟨Quiet, step⟩

def Writer.Ok (check : Int) (shown : TimeValue64) : Writer → Prop
  | .idle => check = shown.seconds
  | .checked t => check = t.seconds
  | .stored t => check = t.seconds ∧ shown = t

def Reader.Knows (check : Int) (shown : TimeValue64) (during : List TimeValue64) : Reader → Prop
  | .idle => True
  | .again => shown ∈ during
  | .loaded sec => shown ∈ during ∧ sec ≤ shown.seconds
  | .full sec nsec => shown ∈ during ∧
      ∃ v ∈ during, v.nanoseconds = nsec ∧ sec ≤ v.seconds ∧ v.seconds ≤ check
  | .done v during => v ∈ during

structure Inv (s : State) : Prop where
  nanos : s.value.nanoseconds = s.shown.nanoseconds
  behind : s.value.seconds ≤ s.shown.seconds
  ahead : s.shown.seconds ≤ s.checkSeconds
  writer : s.writer.Ok s.checkSeconds s.shown
  reader : s.reader.Knows s.checkSeconds s.shown s.during

variable {s s' : State}

theorem Reader.Knows.grow {r : Reader} {check check' : Int} {shown t : TimeValue64}
    {during : List TimeValue64} (h : r.Knows check shown during) (hcheck : check ≤ check')
    (hshown : shown.seconds ≤ t.seconds) : r.Knows check' t (t :: during) := by
  cases r with
  | idle => trivial
  | again => exact mem_cons_self
  | loaded => exact ⟨mem_cons_self, Int.le_trans h.2 hshown⟩
  | full =>
    obtain ⟨-, v, hv, hnanos, hsec, hge⟩ := h
    exact ⟨mem_cons_self, v, mem_cons_of_mem t hv, hnanos, hsec, Int.le_trans hge hcheck⟩
  | done => exact h

theorem Inv.write (h : Inv s) (hs : Mapped.write s = some s') : Inv s' := by
  have hwriter := h.writer
  unfold Mapped.write at hs
  split at hs
  next => cases hs
  next t hw =>
    rw [hw] at hwriter
    cases hs
    have hle : s.shown.seconds ≤ t.seconds := Int.le_trans h.ahead (Int.le_of_eq hwriter)
    exact ⟨rfl, Int.le_trans h.behind hle, Int.le_of_eq hwriter.symm, ⟨hwriter, rfl⟩,
      h.reader.grow (Int.le_refl _) hle⟩
  next t hw =>
    rw [hw] at hwriter
    cases hs
    obtain ⟨hcheck, rfl⟩ := hwriter
    exact ⟨h.nanos, Int.le_refl _, h.ahead, hcheck, h.reader⟩

theorem Inv.read (h : Inv s) : Inv (Mapped.read s) := by
  have hreader := h.reader
  unfold Mapped.read
  split
  case h_1 | h_2 => exact ⟨h.nanos, h.behind, h.ahead, h.writer, mem_cons_self, h.behind⟩
  next hr =>
    rw [hr] at hreader
    exact ⟨h.nanos, h.behind, h.ahead, h.writer, hreader, h.behind⟩
  next sec hr =>
    rw [hr] at hreader
    exact ⟨h.nanos, h.behind, h.ahead, h.writer, hreader.1, s.shown, hreader.1, h.nanos.symm,
      hreader.2, h.ahead⟩
  next sec nsec hr =>
    rw [hr] at hreader
    obtain ⟨hshown, v, hv, rfl, hle, hge⟩ := hreader
    refine ⟨h.nanos, h.behind, h.ahead, h.writer, ?_⟩
    split
    next => exact hshown
    next heq =>
      -- the seconds of `v` lie between two equal numbers
      obtain rfl : sec = v.seconds := by omega
      exact hv

theorem Inv.step {a : Action} (h : Inv s) (hs : Mapped.step s a = some s') : Inv s' := by
  cases a with
  | update t =>
    obtain ⟨⟨hw, hle⟩, ⟨⟩⟩ := Option.ite_none_right_eq_some.mp hs
    have hwriter := h.writer
    rw [hw] at hwriter
    have hgrow : s.checkSeconds ≤ t.seconds := by
      rw [show s.checkSeconds = s.shown.seconds from hwriter]
      omega
    refine ⟨h.nanos, h.behind, Int.le_trans h.ahead hgrow, rfl, ?_⟩
    have hreader := h.reader
    cases hr : s.reader with
    | full =>
      rw [hr] at hreader
      obtain ⟨hshown, v, hv, hnanos, hsec, hge⟩ := hreader
      exact ⟨hshown, v, hv, hnanos, hsec, Int.le_trans hge hgrow⟩
    | _ => rwa [hr] at hreader
  | write => exact h.write hs
  | read =>
    cases hs
    exact h.read

/-- **A read is not torn**: it returns a time that the clock has shown between its start and
its end. -/
theorem read_untorn (hr : system.Reach anyStep s) {v : TimeValue64} {during : List TimeValue64}
    (hdone : s.reader = .done v during) : v ∈ during := by
  have hinv : Inv s := by
    refine hr.inv (fun s h => ?_) fun _ _ _ h _ hs => h.step hs
    obtain ⟨hvalue, hcheck, hw, hreader⟩ := h
    refine ⟨by rw [hvalue], Int.le_of_eq (by rw [hvalue]), Int.le_of_eq hcheck.symm, ?_, ?_⟩
    · rw [hw]
      exact hcheck
    · rw [hreader]
      trivial
  have hknows := hinv.reader
  rwa [hdone] at hknows

def crossing : Option State :=
  system.run ⟨1, ⟨1, 999⟩, .idle, .idle, ⟨1, 999⟩, []⟩
    [.read, .update ⟨2, 0⟩, .write, .read, .read, .write, .read, .read, .read]

theorem crossing_runs : crossing.isSome := by decide

theorem read_untorn_crossing : (⟨2, 0⟩ : TimeValue64) ∈ [⟨2, 0⟩, ⟨1, 999⟩] :=
  read_untorn (Lts.reach_get (M := system) ⟨rfl, rfl, rfl, rfl⟩ crossing_runs) (by decide)

end Mach.Kern.MachClock.Mapped
