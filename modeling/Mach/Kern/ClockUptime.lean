import Mathlib.Tactic.Common
import Mach.Kern.Clock

/-!
# Reading the uptime

`host_get_uptime64` reads the uptime of the last clock interrupt from the mapped time, with
a check of the seconds, and adds what the hardware counter has counted since then, but less
than a tick. The steps of a read are steps of the system, as clock interrupts may come in
between; reads follow one another.

Two things can make a read return less than the one before. A tick that is shortened by an
adjustment advances the uptime by less than a read before it may already have added. And a
read that is interrupted after it has loaded the nanoseconds adds the time since the *new*
interrupt to the *old* uptime, as the check sees the seconds only.
-/

namespace Mach.Kern.MachClock

open Mach.Lib List TimeValue64 Nat

inductive Reader
  | idle
  | loaded (seconds : Int)
  | full (seconds nanoseconds : Int)
  | checked (seconds nanoseconds : Int)
  /-- `time_value64_add_hpc` has read the counter. -/
  | sampled (seconds nanoseconds : Int) (now : Nat)
deriving DecidableEq

structure Machine where
  clock : Clock
  /-- `mtime->uptime_value`. -/
  uptimeValue : TimeValue64
  checkUpseconds : Int
  counter : Nat
  lastHpcRead : Nat
  reader : Reader
  reads : List TimeValue64
  base : Nat
  /-- How far the counter had come from there when it was last read by a read that has
  returned since. -/
  latest : Nat
deriving DecidableEq

def word : Nat := 4294967296

/-- `time_value64_add_hpc`: the nanoseconds since the last clock interrupt. -/
def hpcNanos (period now lastHpcRead : Nat) : Int :=
  let ns : Nat := (now % word + word - lastHpcRead) % word * period % word
  if (ns : Int) ≥ tick * 1000 then tick * 1000 - 1 else ns

inductive Action
  /-- `clock_interrupt`, on the master processor. -/
  | interrupt
  | adjust (new : TimeValue64)
  | setTime (new : TimeValue64)
  | count (n : Nat)
  /-- `host_get_uptime64` does its next step. -/
  | read

def interrupt (s : Machine) : Machine :=
  let clock := clockInterrupt tick s.clock
  { s with
    clock := clock
    uptimeValue := clock.uptime
    checkUpseconds := clock.uptime.seconds
    lastHpcRead := s.counter % word
    base := s.counter
    latest := 0 }

def read (period : Nat) (s : Machine) : Machine :=
  match s.reader with
  | .idle => { s with reader := .loaded s.uptimeValue.seconds }
  | .loaded sec => { s with reader := .full sec s.uptimeValue.nanoseconds }
  | .full sec nsec =>
    { s with reader := if sec ≠ s.checkUpseconds then .idle else .checked sec nsec }
  | .checked sec nsec => { s with reader := .sampled sec nsec s.counter }
  | .sampled sec nsec now =>
    { s with
      reader := .idle
      reads := (TimeValue64.mk sec nsec).addNanos (hpcNanos period now s.lastHpcRead) :: s.reads
      latest := now - s.base }

def step (period : Nat) (s : Machine) : Action → Option Machine
  | .interrupt => some (interrupt s)
  | .adjust new => some { s with clock := (hostAdjustTime64 new s.clock).2 }
  | .setTime new => some { s with clock := hostSetTime64 new s.clock }
  | .count n => some { s with counter := s.counter + n }
  | .read => some (read period s)

/-- A machine whose clock has been started, no adjustment has been asked for and no read has
been made. -/
structure Booted (s : Machine) : Prop where
  timedelta : s.clock.timedelta = 0
  tickdelta : s.clock.tickdelta = 0
  nanos : 0 ≤ s.clock.uptime.nanoseconds ∧ s.clock.uptime.nanoseconds < TimeValue64.nanosMax
  mapped : s.uptimeValue = s.clock.uptime ∧ s.checkUpseconds = s.clock.uptime.seconds
  counter : s.lastHpcRead = s.base % word ∧ s.base ≤ s.counter
  reads : s.reader = .idle ∧ s.reads = [] ∧ s.latest = 0

def machine (period : Nat) : Lts Machine Action where
  init := Booted
  step := step period

/-! ## Runs without a step back -/

def advance (c : Clock) : Int :=
  if c.timedelta = 0 then tick * 1000
  else if c.timedelta < 0 then (tick - c.tickdelta) * 1000
  else (tick + c.tickdelta) * 1000

/-- A clock interrupt does not come between a read's load of the nanoseconds and its use of
`last_hpc_read`, unless the seconds it has loaded are checked in vain. -/
def Untorn (s : Machine) : Reader → Prop
  | .full sec nsec => sec = s.checkUpseconds → nsec + advance s.clock ≥ TimeValue64.nanosMax
  | .checked .. => False
  | .sampled .. => False
  | _ => True

def InTime (period : Nat) (s : Machine) : Reader → Prop
  | .checked .. => (s.counter - s.base) * period < word
  | _ => True

/-- What has to hold before a step. While `timedelta` is negative, no read in an interval has
read the counter later than the shortened tick will account for; and the product of the time
that has been counted since the interrupt has 32 bits when a read asks for it. -/
def Steady (period : Nat) (s : Machine) : Action → Prop
  | .interrupt => Untorn s s.reader ∧
      (s.clock.timedelta < 0 → (s.latest * period : Nat) ≤ advance s.clock)
  | .read => InTime period s s.reader
  | _ => True

def TimeValue64.le (v w : TimeValue64) : Prop :=
  v.seconds < w.seconds ∨ v.seconds = w.seconds ∧ v.nanoseconds ≤ w.nanoseconds

instance (v w : TimeValue64) : Decidable (v.le w) := inferInstanceAs (Decidable (_ ∨ _))

/-- No read has returned less than one before it. -/
def Monotone (s : Machine) : Prop := s.reads.Pairwise fun new old => old.le new

/-! ## The invariant -/

def interp (period a : Nat) : Int := min (a * period : Nat) (tick * 1000 - 1)

def ReaderOk (period : Nat) (s : Machine) : Prop :=
  match s.reader with
  | .idle => True
  | .loaded sec => sec ≤ s.clock.uptime.seconds
  | .full sec nsec => sec < s.clock.uptime.seconds ∨ ⟨sec, nsec⟩ = s.clock.uptime
  | .checked sec nsec => ⟨sec, nsec⟩ = s.clock.uptime
  | .sampled sec nsec now => ⟨sec, nsec⟩ = s.clock.uptime ∧ s.base + s.latest ≤ now ∧
      now ≤ s.counter ∧ (now - s.base) * period < word

def TimeValue64.Normal (v : TimeValue64) : Prop := 0 ≤ v.nanoseconds ∧ v.nanoseconds < nanosMax

structure UptimeInv (period : Nat) (s : Machine) : Prop where
  normal : s.clock.uptime.Normal
  tickdelta : s.clock.tickdelta = 0 ∨ s.clock.tickdelta = 5 ∨ s.clock.tickdelta = 50
  mapped : s.uptimeValue = s.clock.uptime ∧ s.checkUpseconds = s.clock.uptime.seconds
  hpc : s.lastHpcRead = s.base % word
  counter : s.base + s.latest ≤ s.counter
  reader : ReaderOk period s
  reads : ∀ v ∈ s.reads, v.Normal ∧ v.total ≤ s.clock.uptime.total + interp period s.latest
  monotone : Monotone s

variable {period : Nat} {s s' : Machine} {c : Clock} {v w : TimeValue64}

theorem TimeValue64.Normal.addNanos (h : v.Normal) {n : Int} (h0 : 0 ≤ n) (h1 : n < nanosMax) :
    (v.addNanos n).Normal := by
  unfold Normal TimeValue64.addNanos nanosMax at *
  split
  · dsimp only
    omega
  · dsimp only
    omega

theorem TimeValue64.le_of_total (hv : v.Normal) (hw : w.Normal) (h : v.total ≤ w.total) :
    v.le w := by
  unfold TimeValue64.le
  unfold TimeValue64.Normal total nanosMax at *
  omega

/-! ## Clock interrupts -/

section

variable (hd : c.tickdelta = 0 ∨ c.tickdelta = 5 ∨ c.tickdelta = 50)
include hd

theorem uptime_clockInterrupt : (clockInterrupt tick c).uptime = c.uptime.addNanos (advance c) ∧
      (clockInterrupt tick c).tickdelta = c.tickdelta := by
  have htick : tick = 10000 := rfl
  unfold clockInterrupt advance
  rw [htick]
  split
  · exact ⟨rfl, rfl⟩
  split
  · rw [if_pos (by omega)]
    refine ⟨?_, rfl⟩
    rw [toInt_toInt_mul, toInt_eq (x := (10000 - c.tickdelta) * 1000)]
    rfl
  · refine ⟨?_, rfl⟩
    rw [toInt_toInt_mul, toInt_eq (x := (10000 + c.tickdelta) * 1000)]
    rfl

theorem advance_bounds :
    0 ≤ advance c ∧ advance c < 1000000000 ∧ (0 ≤ c.timedelta → tick * 1000 ≤ advance c) := by
  have htick : tick = 10000 := rfl
  unfold advance
  split
  · omega
  split
  · omega
  · omega

end

theorem hpcNanos_eq {now base : Nat} (hle : base ≤ now) (hfit : (now - base) * period < word) :
    hpcNanos period now (base % word) = interp period (now - base) := by
  have hmod : (now % word + word - base % word) % word * period % word = (now - base) * period := by
    have hsub : (now % word + word - base % word) % word = (now - base) % word := by
      unfold word
      omega
    rw [hsub, mod_mul_mod, mod_eq_of_lt hfit]
  unfold hpcNanos interp
  dsimp only
  split
  · omega
  · omega

theorem interp_mono {a b : Nat} (h : a ≤ b) : interp period a ≤ interp period b := by
  have := mul_le_mul_right period h
  unfold interp
  omega

theorem interp_bounds (period a : Nat) : 0 ≤ interp period a ∧ interp period a < 10000000 := by
  unfold interp
  rw [show tick * 1000 - 1 = 9999999 from rfl]
  omega

theorem uptimeInv_booted (h : Booted s) : UptimeInv period s := by
  obtain ⟨hr, hreads, hlatest⟩ := h.reads
  refine ⟨h.nanos, .inl h.tickdelta, h.mapped, h.counter.1, ?_, ?_, ?_, ?_⟩
  · rw [hlatest]
    exact h.counter.2
  · unfold ReaderOk
    rw [hr]
    trivial
  · rw [hreads]
    intro v hv
    exact absurd hv not_mem_nil
  · unfold Monotone
    rw [hreads]
    exact List.Pairwise.nil

section

variable (h : UptimeInv period s)
include h

theorem readerOk_interrupt (hu : Untorn s s.reader) : ReaderOk period (interrupt s) := by
  obtain ⟨hup, -⟩ := uptime_clockInterrupt h.tickdelta
  obtain ⟨hpos, -, -⟩ := advance_bounds h.tickdelta
  have hle : s.clock.uptime.seconds ≤ (s.clock.uptime.addNanos (advance s.clock)).seconds := by
    unfold TimeValue64.addNanos
    split
    · dsimp only
      omega
    · exact Int.le_refl _
  have hok := h.reader
  unfold ReaderOk at hok ⊢
  have hr : (interrupt s).reader = s.reader := rfl
  have hc : (interrupt s).clock.uptime = s.clock.uptime.addNanos (advance s.clock) := hup
  rw [hr, hc]
  cases hs : s.reader with
  | idle => trivial
  | loaded sec =>
    rw [hs] at hok
    exact Int.le_trans hok hle
  | full sec nsec =>
    rw [hs] at hok hu
    rcases hok with hlt | heq
    · exact .inl (Int.lt_of_lt_of_le hlt hle)
    · have hcheck := hu (by rw [h.mapped.2, ← heq])
      refine .inl ?_
      rw [← heq]
      unfold TimeValue64.addNanos
      rw [if_pos hcheck]
      exact Int.lt_succ sec
  | checked | sampled =>
    rw [hs] at hu
    exact hu.elim

theorem uptimeInv_interrupt (hsteady : Steady period s .interrupt) :
    UptimeInv period (interrupt s) := by
  obtain ⟨hup, htd⟩ := uptime_clockInterrupt h.tickdelta
  obtain ⟨hpos, hlt, hge⟩ := advance_bounds h.tickdelta
  have hc : (interrupt s).clock.uptime = s.clock.uptime.addNanos (advance s.clock) := hup
  refine ⟨?_, ?_, ⟨rfl, rfl⟩, rfl, (Nat.le_refl _), readerOk_interrupt h hsteady.1, ?_, h.monotone⟩
  · rw [hc]
    exact h.normal.addNanos hpos hlt
  · have : (interrupt s).clock.tickdelta = s.clock.tickdelta := htd
    rw [this]
    exact h.tickdelta
  · intro v hv
    obtain ⟨hn, hle⟩ := h.reads v hv
    refine ⟨hn, ?_⟩
    -- what a read has added is not more than the interrupt adds
    have hinterp : interp period s.latest ≤ advance s.clock := by
      have htick : tick = 10000 := rfl
      unfold interp
      rcases Int.lt_or_le s.clock.timedelta 0 with hneg | hnn
      · exact Int.le_trans (Int.min_le_left _ _) (hsteady.2 hneg)
      · have := hge hnn
        have := Int.min_le_right (s.latest * period : Nat) (tick * 1000 - 1)
        omega
    have hzero : 0 ≤ interp period (interrupt s).latest := by
      unfold interp
      rw [show tick * 1000 - 1 = 9999999 from rfl]
      omega
    rw [hc, total_addNanos]
    omega

/-! ## Reads -/

theorem uptimeInv_read (hsteady : Steady period s .read) : UptimeInv period (read period s) := by
  have hok := h.reader
  unfold ReaderOk at hok
  have hin : InTime period s s.reader := hsteady
  unfold read
  cases hs : s.reader with
  | idle =>
    refine { h with reader := ?_ }
    exact Int.le_of_eq (congrArg TimeValue64.seconds h.mapped.1)
  | loaded sec =>
    rw [hs] at hok
    refine { h with reader := ?_ }
    show sec < s.clock.uptime.seconds ∨ ⟨sec, s.uptimeValue.nanoseconds⟩ = s.clock.uptime
    rcases Int.lt_or_eq_of_le hok with hlt | heq
    · exact .inl hlt
    · refine .inr ?_
      rw [h.mapped.1, heq]
  | full sec nsec =>
    rw [hs] at hok
    dsimp only
    by_cases hcheck : sec = s.checkUpseconds
    · rw [if_neg (by simpa using hcheck)]
      refine { h with reader := ?_ }
      rcases hok with hlt | hup
      · rw [hcheck, h.mapped.2] at hlt
        exact absurd hlt (Int.lt_irrefl _)
      · exact hup
    · rw [if_pos hcheck]
      exact { h with reader := trivial }
  | checked sec nsec =>
    rw [hs] at hok hin
    refine { h with reader := ?_ }
    exact ⟨hok, h.counter, (Nat.le_refl _), hin⟩
  | sampled sec nsec now =>
    rw [hs] at hok
    obtain ⟨hup, hlatest, hnow, hfit⟩ := hok
    dsimp only
    rw [hup, h.hpc, hpcNanos_eq (by omega) hfit]
    have hb := interp_bounds period (now - s.base)
    have hnew : (s.clock.uptime.addNanos (interp period (now - s.base))).Normal :=
      h.normal.addNanos hb.1 (Int.lt_trans hb.2 (by decide))
    have hmono : interp period s.latest ≤ interp period (now - s.base) := interp_mono (by omega)
    refine ⟨h.normal, h.tickdelta, h.mapped, rfl, ?_, trivial, ?_, ?_⟩
    · show s.base + (now - s.base) ≤ s.counter
      omega
    · intro v hv
      rcases mem_cons.mp hv with rfl | hv
      · exact ⟨hnew, Int.le_of_eq (total_addNanos _ _)⟩
      · obtain ⟨hn, hle⟩ := h.reads v hv
        refine ⟨hn, ?_⟩
        show v.total ≤ s.clock.uptime.total + interp period (now - s.base)
        omega
    · refine pairwise_cons.mpr ⟨?_, h.monotone⟩
      intro v hv
      obtain ⟨hn, hle⟩ := h.reads v hv
      apply le_of_total hn hnew
      rw [total_addNanos]
      omega

/-! ## Every run -/

theorem uptimeInv_adjust (new : TimeValue64) :
    UptimeInv period { s with clock := (hostAdjustTime64 new s.clock).2 } := by
  refine { h with tickdelta := ?_ }
  unfold hostAdjustTime64
  dsimp only
  split
  · split
    · exact .inr (.inr rfl)
    · exact .inr (.inl rfl)
  · exact h.tickdelta

theorem uptimeInv_count (n : Nat) : UptimeInv period { s with counter := s.counter + n } := by
  refine { h with counter := Nat.le_trans h.counter (Nat.le_add_right _ n), reader := ?_ }
  have hok := h.reader
  unfold ReaderOk at hok ⊢
  split
  · trivial
  next hs =>
    rw [hs] at hok
    exact hok
  next hs =>
    rw [hs] at hok
    exact hok
  next hs =>
    rw [hs] at hok
    exact hok
  next hs =>
    rw [hs] at hok
    exact ⟨hok.1, hok.2.1, Nat.le_trans hok.2.2.1 (Nat.le_add_right _ n), hok.2.2.2⟩

end

theorem uptimeInv_reach (h : (machine period).Reach (Steady period) s) : UptimeInv period s := by
  refine Lts.Reach.inv ?_ ?_ h
  · intro s hs
    exact uptimeInv_booted hs
  intro s a s' hinv hsteady hstep
  cases a with
  | interrupt =>
    cases hstep
    exact uptimeInv_interrupt hinv hsteady
  | adjust new =>
    cases hstep
    exact uptimeInv_adjust hinv new
  | setTime new =>
    cases hstep
    exact { hinv with }
  | count n =>
    cases hstep
    exact uptimeInv_count hinv n
  | read =>
    cases hstep
    exact uptimeInv_read hinv hsteady

/-- **The uptime never goes backwards** in a run of steady steps. -/
theorem uptime_monotone (h : (machine period).Reach (Steady period) s) : Monotone s :=
  (uptimeInv_reach h).monotone

def bootMachine : Machine where
  clock := ⟨⟨0, 0⟩, ⟨0, 0⟩, 0, 0⟩
  uptimeValue := ⟨0, 0⟩
  checkUpseconds := 0
  counter := 0
  lastHpcRead := 0
  reader := .idle
  reads := []
  base := 0
  latest := 0

theorem booted_bootMachine : Booted bootMachine :=
  ⟨rfl, rfl, by decide, by decide, by decide, by decide⟩

def wholeRead : List Action := [.read, .read, .read, .read, .read]

instance decidableUntorn (s : Machine) : (r : Reader) → Decidable (Untorn s r)
  | .idle => .isTrue trivial
  | .loaded _ => .isTrue trivial
  | .full .. => inferInstanceAs (Decidable (_ → _))
  | .checked .. => .isFalse id
  | .sampled .. => .isFalse id

instance decidableInTime (s : Machine) : (r : Reader) → Decidable (InTime period s r)
  | .idle => .isTrue trivial
  | .loaded _ => .isTrue trivial
  | .full .. => .isTrue trivial
  | .checked .. => inferInstanceAs (Decidable (_ < _))
  | .sampled .. => .isTrue trivial

instance decidableSteady (s : Machine) : (a : Action) → Decidable (Steady period s a)
  | .interrupt => inferInstanceAs (Decidable (_ ∧ _))
  | .adjust _ => .isTrue trivial
  | .setTime _ => .isTrue trivial
  | .count _ => .isTrue trivial
  | .read => decidableInTime s s.reader

def twoReads : List Action :=
  .count 900000 :: wholeRead ++
    [.adjust ⟨-1, 0⟩, .count 100000, .interrupt, .count 500000] ++ wholeRead

theorem twoReads_monotone : ∃ s, (machine 10).run bootMachine twoReads = some s ∧
    s.reads = [⟨0, 14950000⟩, ⟨0, 9000000⟩] ∧ Monotone s :=
  ⟨_, rfl, by decide, uptime_monotone (.run twoReads (.start booted_bootMachine) (by decide) rfl)⟩

/-- A read at the end of a tick that is then shortened, and one right after it; and a read in
the middle of a tick, followed by one that is interrupted. -/
theorem uptime_backwards :
    (∃ s, (machine 10).run bootMachine (.adjust ⟨-1, 0⟩ :: .count 999000 :: wholeRead ++
        [.count 1000, .interrupt] ++ wholeRead) = some s ∧
      s.reads = [⟨0, 9950000⟩, ⟨0, 9990000⟩] ∧ ¬ Monotone s) ∧
    ∃ s, (machine 10).run bootMachine (.count 900000 :: wholeRead ++
        [.read, .read, .read, .count 100000, .interrupt, .read, .read]) = some s ∧
      s.reads = [⟨0, 0⟩, ⟨0, 9000000⟩] ∧ ¬ Monotone s := by
  unfold Monotone
  refine ⟨⟨_, rfl, by decide, by decide⟩, ⟨_, rfl, by decide, by decide⟩⟩

end Mach.Kern.MachClock
