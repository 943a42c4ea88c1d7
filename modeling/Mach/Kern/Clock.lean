import Mach.Lib.Transition

/-!
# The clock

The time keeping of `kern/mach_clock.c` on the master processor: how a clock interrupt
advances `time` and `uptime`, how `host_adjust_time64` makes it run faster or slower for a
while, and how `host_get_uptime64` reads the uptime between two interrupts with the help of
a hardware counter.

Where the code computes in an `int`, the result is taken modulo `2 ^ 32` (`toInt`). The
assertions that a time value is normalised are left out.
-/

namespace Mach.Kern.MachClock

/-- The value of an `int` after a computation. -/
def toInt (x : Int) : Int :=
  if x % 4294967296 < 2147483648 then x % 4294967296 else x % 4294967296 - 4294967296

/-- `HZ`. -/
def hz : Int := 100

def tick : Int := 1000000 / hz

def tickadj : Int := if hz > 500 then 1 else 500 / hz

def bigadj : Int := 1000000

/-! ## Time values -/

structure TimeValue64 where
  seconds : Int
  nanoseconds : Int
deriving DecidableEq

namespace TimeValue64

/-- `TIME_NANOS_MAX`. -/
def nanosMax : Int := 1000000000

/-- `time_value64_add_nanos`. -/
def addNanos (v : TimeValue64) (nanos : Int) : TimeValue64 :=
  if v.nanoseconds + nanos ≥ nanosMax then
    ⟨v.seconds + 1, v.nanoseconds + nanos - nanosMax⟩
  else ⟨v.seconds, v.nanoseconds + nanos⟩

def total (v : TimeValue64) : Int := v.seconds * nanosMax + v.nanoseconds

theorem total_addNanos (v : TimeValue64) (nanos : Int) :
    (v.addNanos nanos).total = v.total + nanos := by
  unfold addNanos total nanosMax
  split
  · dsimp only
    omega
  · dsimp only
    omega

end TimeValue64

/-! ## Ticks and adjustments -/

structure Clock where
  time : TimeValue64
  uptime : TimeValue64
  timedelta : Int
  tickdelta : Int
deriving DecidableEq

def Clock.addNanos (c : Clock) (nanos : Int) : Clock :=
  { c with time := c.time.addNanos nanos, uptime := c.uptime.addNanos nanos }

/-- `clock_interrupt`, as far as the time of day is concerned. -/
def clockInterrupt (usec : Int) (c : Clock) : Clock :=
  if c.timedelta = 0 then c.addNanos (toInt (usec * 1000))
  else if c.timedelta < 0 then
    if usec > c.tickdelta then
      { c with timedelta := toInt (c.timedelta + c.tickdelta) }.addNanos
        (toInt (toInt (usec - c.tickdelta) * 1000))
    else
      { c with timedelta := toInt (c.timedelta + toInt (usec - 1)) }.addNanos (1 * 1000)
  else
    { c with timedelta := toInt (c.timedelta - c.tickdelta) }.addNanos
      (toInt (toInt (usec + c.tickdelta) * 1000))

def TimeValue64.micros (v : TimeValue64) : Int :=
  v.seconds * 1000000 + v.nanoseconds.tdiv 1000

/-- `host_adjust_time64`: the old adjustment, and the clock with the new one. The new one is
computed without a sign, in 64 bits. -/
def hostAdjustTime64 (new : TimeValue64) (c : Clock) : TimeValue64 × Clock :=
  let ndelta := new.micros % 18446744073709551616
  let oadj : TimeValue64 := ⟨c.timedelta.tdiv 1000000, c.timedelta.tmod 1000000 * 1000⟩
  let tickdelta :=
    if c.timedelta = 0 then if ndelta > bigadj then 10 * tickadj else tickadj
    else c.tickdelta
  let ndelta := if ndelta % tickdelta ≠ 0 then ndelta / tickdelta * tickdelta else ndelta
  (oadj, { c with tickdelta := tickdelta, timedelta := toInt ndelta })

/-- `host_set_time64`. -/
def hostSetTime64 (new : TimeValue64) (c : Clock) : Clock := { c with time := new }

theorem toInt_eq {x : Int} (h1 : -2147483648 ≤ x := by omega) (h2 : x < 2147483648 := by omega) :
    toInt x = x := by
  unfold toInt
  split <;> omega

theorem toInt_toInt_mul (x y : Int) : toInt (toInt x * y) = toInt (x * y) := by
  have hmod : toInt x * y % 4294967296 = x * y % 4294967296 := by
    rw [Int.mul_emod, Int.mul_emod x y]
    congr 2
    unfold toInt
    split <;> omega
  unfold toInt at hmod ⊢
  rw [hmod]

end Mach.Kern.MachClock
