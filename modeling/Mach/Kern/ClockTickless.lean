import Mathlib.Algebra.GroupWithZero.Nat
import Mathlib.Logic.Function.Iterate

/-!
# Tickless timers

`clock_interrupt` and `softclock` of `kern/mach_clock.c`, with and without `TICKLESS_TIMER`: when
the first timer is far away, a tickless clock skips the tick, and it counts no tick that it
skips. The list of timers holds the ticks at which they expire. Its head, which stands behind
the last timer, expires at the greatest number of an `unsigned long`, of `w` bits, which is
what the ticks are counted in.
-/

namespace Mach.Kern.MachClock.Tickless

open Function

structure State where
  elapsedTicks : Nat
  timers : List Nat
  /-- `softclock` has called the function of the head, which is null. -/
  crashed : Bool
deriving DecidableEq

/-- `telt->ticks` of the first element of the queue, the head if there is no timer. -/
def firstTicks (w : Nat) : List Nat → Nat
  | [] => 2 ^ w - 1
  | telt :: _ => telt

/-- The first timer is due, `telt->ticks <= elapsed_ticks`. -/
def isDue (w elapsed : Nat) (timers : List Nat) : Bool := firstTicks w timers ≤ elapsed

def ticklessHavePendingTimers (w : Nat) (s : State) : Bool := isDue w s.elapsedTicks s.timers

def ticklessNextTimerDeadline (w : Nat) (s : State) : Nat :=
  let ticks := firstTicks w s.timers
  if ticks > s.elapsedTicks then min (ticks - s.elapsedTicks) 100 else 0

def ticklessCanSkipTick (w : Nat) (s : State) : Bool :=
  if ticklessHavePendingTimers w s then false else ticklessNextTimerDeadline w s > 1

/-- `softclock` without `TICKLESS_TIMER`: the timers that it leaves, unless it comes to the
head. -/
def softclock (w elapsed : Nat) : List Nat → Option (List Nat)
  | [] => if firstTicks w [] > elapsed then some [] else none
  | telt :: ts => if telt > elapsed then some (telt :: ts) else softclock w elapsed ts

def maxBatch : Nat := 16

/-- `softclock` with `TICKLESS_TIMER`, and the rounds for which it calls `setsoftclock`. -/
def softclockRounds (w elapsed : Nat) : Nat → List Nat → Option (List Nat)
  | _, [] => if firstTicks w [] > elapsed then some [] else none
  | processed, telt :: ts =>
    if telt > elapsed then some (telt :: ts)
    else if processed + 1 ≥ maxBatch then
      if isDue w elapsed ts then softclockRounds w elapsed 0 ts else some ts
    else softclockRounds w elapsed (processed + 1) ts

/-- `clock_interrupt` on the master processor, and the `softclock` that it asks for. -/
def clockInterrupt (w : Nat) (tickless : Bool) (s : State) : State :=
  if tickless && ticklessCanSkipTick w s then s
  else
    let elapsed := (s.elapsedTicks + 1) % 2 ^ w
    -- `needsoft`
    if isDue w elapsed s.timers then
      match if tickless then softclockRounds w elapsed 0 s.timers else softclock w elapsed s.timers with
      | none => ⟨elapsed, [], true⟩
      | some timers => ⟨elapsed, timers, s.crashed⟩
    else ⟨elapsed, s.timers, s.crashed⟩

/-- The state after `k` clock interrupts. -/
def run (w : Nat) (tickless : Bool) (k : Nat) (s : State) : State := (clockInterrupt w tickless)^[k] s

/-- For `n` interrupts the timers are on schedule with `TICKLESS_TIMER`: the ticks get as far as
the first timer in time, and every timer is run at the same interrupt as without. -/
structure OnSchedule (w n : Nat) (s : State) : Prop where
  elapsed : ∀ k ≤ n, ∀ first ∈ s.timers.head?, first ≤ s.elapsedTicks + k →
    first ≤ (run w true k s).elapsedTicks
  timers : ∀ k ≤ n, (run w true k s).timers = (run w false k s).timers
  alive : ∀ k ≤ n, (run w true k s).crashed = s.crashed

def State.Idle (s : State) (tick : Nat) : Prop := ∀ first ∈ s.timers.head?, tick < first

/-- The first timer is due at the next tick, or none is up to the given one. -/
def State.Dense (s : State) (tick : Nat) : Prop :=
  ∀ first ∈ s.timers.head?, first ≤ s.elapsedTicks + 1 ∨ tick < first

/-! ## One interrupt -/

section

variable {w elapsed first : Nat} {s : State} {tickless : Bool} {ts : List Nat}

theorem softclock_of_not_due (h : isDue w elapsed ts = false) : softclock w elapsed ts = some ts := by
  cases ts with
  | nil => exact if_pos (by simpa [isDue] using h)
  | cons telt ts => exact if_pos (Nat.lt_of_not_le (of_decide_eq_false h))

theorem softclock_eq (h : elapsed < 2 ^ w - 1) :
    softclock w elapsed ts = some (ts.dropWhile (· ≤ elapsed)) := by
  induction ts with
  | nil => exact if_pos h
  | cons telt ts ih =>
    rw [softclock]
    split
    next hgt => rw [List.dropWhile_cons_of_neg (by simpa using hgt)]
    next hle => rw [List.dropWhile_cons_of_pos (by simpa using hle), ih]

theorem softclockRounds_eq (processed : Nat) :
    softclockRounds w elapsed processed ts = softclock w elapsed ts := by
  fun_induction softclockRounds w elapsed processed ts <;> grind [softclock, softclock_of_not_due]

theorem canSkip_iff (hs : s.timers = first :: ts) :
    ticklessCanSkipTick w s = true ↔ s.elapsedTicks + 1 < first := by
  simp only [ticklessCanSkipTick, ticklessHavePendingTimers, ticklessNextTimerDeadline, hs, isDue,
    firstTicks]
  split <;> simp_all <;> omega

theorem run_of_canSkip (h : ticklessCanSkipTick w s = true) (k : Nat) : run w true k s = s := by
  have hfixed : clockInterrupt w true s = s := if_pos h
  exact iterate_fixed hfixed k

theorem clockInterrupt_eq (hr : s.elapsedTicks + 1 < 2 ^ w - 1)
    (h : tickless = true → ticklessCanSkipTick w s = false) :
    clockInterrupt w tickless s =
      ⟨s.elapsedTicks + 1, s.timers.dropWhile (· ≤ s.elapsedTicks + 1), s.crashed⟩ := by
  unfold clockInterrupt
  rw [if_neg (by grind), Nat.mod_eq_of_lt (by omega)]
  simp only [softclockRounds_eq, ite_self]
  split
  next => rw [softclock_eq hr]
  next hdue =>
    have hsame := (softclock_eq hr).symm.trans (softclock_of_not_due (Bool.eq_false_iff.mpr hdue))
    rw [Option.some_inj.mp hsame]

theorem clockInterrupt_plain (hr : s.elapsedTicks + 1 < 2 ^ w - 1) : clockInterrupt w false s =
    ⟨s.elapsedTicks + 1, s.timers.dropWhile (· ≤ s.elapsedTicks + 1), s.crashed⟩ :=
  clockInterrupt_eq hr nofun

theorem dropWhile_of_idle (h : s.Idle elapsed) : s.timers.dropWhile (· ≤ elapsed) = s.timers := by
  cases hs : s.timers with
  | nil => rfl
  | cons first ts =>
    have hfirst := h first (by rw [hs]; rfl)
    exact List.dropWhile_cons_of_neg (by simpa using hfirst)

theorem run_add (w : Nat) (tickless : Bool) (j k : Nat) (s : State) :
    run w tickless (j + k) s = run w tickless j (run w tickless k s) :=
  iterate_add_apply _ j k s

theorem run_succ (w : Nat) (tickless : Bool) (k : Nat) (s : State) :
    run w tickless (k + 1) s = clockInterrupt w tickless (run w tickless k s) :=
  iterate_succ_apply' _ k s

end

/-! ## Whole runs -/

section

variable {w n k : Nat} {s : State} (hr : s.elapsedTicks + n < 2 ^ w - 1)
include hr

theorem elapsedTicks_plain (hk : k ≤ n) : (run w false k s).elapsedTicks = s.elapsedTicks + k := by
  induction k with
  | zero => rfl
  | succ k ih =>
    have ih := ih (by omega)
    rw [run_succ, clockInterrupt_plain (by omega), ih]
    rfl

theorem run_plain_succ (hk : k < n) : run w false (k + 1) s =
    ⟨s.elapsedTicks + (k + 1),
      (run w false k s).timers.dropWhile (· ≤ s.elapsedTicks + (k + 1)), (run w false k s).crashed⟩ := by
  have hticks := elapsedTicks_plain hr (Nat.le_of_lt hk)
  rw [run_succ, clockInterrupt_plain (by omega), hticks]
  rfl

theorem crashed_plain (hk : k ≤ n) : (run w false k s).crashed = s.crashed := by
  induction k with
  | zero => rfl
  | succ k ih =>
    rw [run_plain_succ hr hk]
    exact ih (by omega)

theorem timers_plain_idle {j m : Nat} (hm : m ≤ n) (hjm : j ≤ m)
    (h : (run w false j s).Idle (s.elapsedTicks + m)) :
    (run w false m s).timers = (run w false j s).timers := by
  suffices ∀ k, j ≤ k → k ≤ m → (run w false k s).timers = (run w false j s).timers from
    this m hjm (Nat.le_refl m)
  intro k hjk
  induction hjk with
  | refl => exact fun _ => rfl
  | step hjk ih =>
    rename_i k
    intro hkm
    have ih := ih (by omega)
    have hidle : (run w false k s).Idle (s.elapsedTicks + (k + 1)) := by
      intro first hfirst
      rw [ih] at hfirst
      have := h first hfirst
      omega
    rw [run_plain_succ hr (by omega), ← ih]
    exact dropWhile_of_idle hidle

theorem run_tickless_lags (hk : k ≤ n) (h : ∀ i < k, (run w false i s).Dense (s.elapsedTicks + n)) :
    ∃ j ≤ k, run w true k s = run w false j s ∧
      (j = k ∨ (run w false j s).Idle (s.elapsedTicks + n)) := by
  induction k with
  | zero => exact ⟨0, Nat.le_refl 0, rfl, .inl rfl⟩
  | succ k ih =>
    obtain ⟨j, hj, heq, hlag⟩ := ih (by omega) fun i hi => h i (by omega)
    have hticks := elapsedTicks_plain hr (show j ≤ n by omega)
    cases hskip : ticklessCanSkipTick w (run w false j s) with
    | true =>
      -- where a tick is skipped in a dense list, no timer is due
      have hidle : (run w false j s).Idle (s.elapsedTicks + n) := by
        intro first hfirst
        obtain ⟨ts, hs⟩ := List.head?_eq_some_iff.mp hfirst
        have hfar := (canSkip_iff hs).mp hskip
        exact (h j (by omega) first hfirst).resolve_left (by omega)
      refine ⟨j, by omega, ?_, .inr hidle⟩
      rw [run_succ, heq]
      exact if_pos hskip
    | false =>
      refine ⟨j + 1, by omega, ?_, ?_⟩
      · rw [run_succ, heq, run_succ, clockInterrupt_eq (by omega) fun _ => hskip,
          clockInterrupt_plain (by omega)]
      · rcases hlag with rfl | hidle
        · exact .inl rfl
        · refine .inr fun first hfirst => hidle first ?_
          rw [run_plain_succ hr (by omega), dropWhile_of_idle] at hfirst
          · exact hfirst
          · intro first hfirst
            have := hidle first hfirst
            omega

theorem dense_of_timers (h : ∀ k ≤ n, (run w true k s).timers = (run w false k s).timers)
    (hk : k < n) (heq : run w true k s = run w false k s) :
    (run w false k s).Dense (s.elapsedTicks + n) := by
  intro first hfirst
  obtain ⟨ts, hs⟩ := List.head?_eq_some_iff.mp hfirst
  have hticks := elapsedTicks_plain hr (Nat.le_of_lt hk)
  by_contra hlt
  rw [not_or] at hlt
  -- the plain clock runs the timer at the interrupt after `m`
  obtain ⟨m, hm⟩ : ∃ m, s.elapsedTicks + (m + 1) = first := ⟨first - s.elapsedTicks - 1, by omega⟩
  have hskip : ticklessCanSkipTick w (run w true k s) = true := by
    rw [heq, canSkip_iff hs]
    omega
  have hstill : (run w true (m + 1) s).timers = first :: ts := by
    rw [show m + 1 = m + 1 - k + k by omega, run_add, run_of_canSkip hskip, heq, hs]
  have hwaits : (run w false m s).timers = first :: ts := by
    rw [timers_plain_idle hr (by omega) (show k ≤ m by omega), hs]
    intro other hother
    rw [hs] at hother
    cases hother
    omega
  have hgone : first :: ts = ts.dropWhile (· ≤ s.elapsedTicks + (m + 1)) := by
    rw [← hstill, h (m + 1) (by omega), run_plain_succ hr (by omega), hwaits]
    have hdue : decide (first ≤ s.elapsedTicks + (m + 1)) = true := decide_eq_true (by omega)
    exact List.dropWhile_cons_of_pos (p := (· ≤ s.elapsedTicks + (m + 1))) hdue
  have hshort := (List.dropWhile_sublist (· ≤ s.elapsedTicks + (m + 1)) (l := ts)).length_le
  rw [← hgone] at hshort
  exact Nat.lt_irrefl _ hshort

/-- The timers of a tickless clock are on schedule for `n` interrupts just when no tick is
skipped that counts: without `TICKLESS_TIMER`, there is always a timer at the next tick until none
is due in these interrupts. The ticks are to stay below the sentinel. -/
theorem onSchedule_iff_dense :
    OnSchedule w n s ↔ ∀ k < n, (run w false k s).Dense (s.elapsedTicks + n) := by
  constructor
  · intro h k
    induction k using Nat.strongRecOn with
    | ind k ih =>
      intro hk
      obtain ⟨j, hj, heq, rfl | hidle⟩ :=
        run_tickless_lags hr (Nat.le_of_lt hk) fun i hi => ih i hi (by omega)
      · exact dense_of_timers hr h.timers hk heq
      · intro first hfirst
        refine .inr (hidle first ?_)
        rw [← timers_plain_idle hr (Nat.le_of_lt hk) hj fun first hfirst => ?_]
        · exact hfirst
        · have := hidle first hfirst
          omega
  · intro h
    have hlags := fun k (hk : k ≤ n) => run_tickless_lags hr hk fun i hi => h i (by omega)
    refine ⟨fun k hk first hfirst hdue => ?_, fun k hk => ?_, fun k hk => ?_⟩
    · obtain ⟨j, hj, heq, hlag⟩ := hlags k hk
      rw [heq, elapsedTicks_plain hr (by omega)]
      rcases hlag with rfl | hidle
      · exact hdue
      · -- a clock that has not come to the first timer still has it
        by_contra hlt
        have hsame := timers_plain_idle hr (by omega) (Nat.zero_le j) (s := s) (w := w) fun other hother => by
          have : other = first := Option.some_inj.mp (hother.symm.trans hfirst)
          omega
        have := hidle first (by rw [hsame]; exact hfirst)
        omega
    · obtain ⟨j, hj, heq, rfl | hidle⟩ := hlags k hk
      · rw [heq]
      · rw [heq, timers_plain_idle hr hk hj fun first hfirst => ?_]
        have := hidle first hfirst
        omega
    · obtain ⟨j, hj, heq, -⟩ := hlags k hk
      rw [heq, crashed_plain hr (by omega)]

end

theorem threeTimers_onSchedule : OnSchedule 32 3 ⟨5, [6, 7, 8], false⟩ := by
  refine (onSchedule_iff_dense (by decide)).mpr ?_
  unfold State.Dense
  decide

/-- A timer that is two ticks away never expires. -/
theorem timer_of_two_ticks_never_expires : (run 32 false 2 ⟨0, [2], false⟩).timers = [] ∧
    ∀ k, run 32 true k ⟨0, [2], false⟩ = ⟨0, [2], false⟩ :=
  ⟨by decide, fun k => run_of_canSkip (by decide) k⟩

end Mach.Kern.MachClock.Tickless
