import Mathlib.Algebra.Order.BigOperators.Group.Finset
import Mathlib.Algebra.BigOperators.Ring.Finset
import Mach.Kern.Clock

/-!
# A gradual adjustment

A request for `m` microseconds is spread over the ticks that follow: each of them advances
the clock by `tickdelta` more, or less, than the tick has lasted, until `timedelta` is 0.

For `m ≥ 0` that takes `m / tickdelta` ticks. A negative request is rounded and compared as
a number of 64 bits without sign, which makes it a multiple of `tickdelta` only before the
`2 ^ 64` are taken off again; what is left in `timedelta` is not a multiple of the step, and
the steps lead past 0 and back for ever (`timedelta_negative`).
-/

namespace Mach.Kern.MachClock

open Finset

/-- The clock after the first `k` of a sequence of ticks. -/
def ticks (c : Clock) (u : Nat → Int) : Nat → Clock
  | 0 => c
  | k + 1 => clockInterrupt (u k) (ticks c u k)

/-- The time that the `k`-th tick has added, in nanoseconds. -/
def added (c : Clock) (u : Nat → Int) (k : Nat) : Int :=
  (ticks c u (k + 1)).time.total - (ticks c u k).time.total

/-- The adjustment of `m` microseconds that has been stored in `c` is made by the first `n`
ticks. -/
structure Converges (c : Clock) (m : Int) (u : Nat → Int) (n : Nat) : Prop where
  /-- Each of these ticks moves `timedelta` towards 0. -/
  towards : ∀ k < n, let d := (ticks c u k).timedelta; let d' := (ticks c u (k + 1)).timedelta
    0 < d ∧ 0 ≤ d' ∧ d' < d ∨ d < 0 ∧ d' ≤ 0 ∧ d < d'
  zero : (ticks c u n).timedelta = 0
  /-- They add the adjustment, rounded towards 0 to a multiple of `tickdelta`. -/
  sum : ∑ k ∈ Finset.range n, (added c u k - u k * 1000) =
    m.tdiv c.tickdelta * c.tickdelta * 1000
  after : ∀ k, n ≤ k → (ticks c u k).timedelta = 0 ∧ added c u k = u k * 1000

def rate (m : Int) : Int := if m > bigadj then 10 * tickadj else tickadj

def span (m : Int) : Nat := (m / rate m).toNat

theorem rate_cases (m : Int) : rate m = 50 ∨ rate m = 5 := by
  unfold rate
  split
  · exact .inl rfl
  · exact .inr rfl

variable {c : Clock} {new : TimeValue64} {u : Nat → Int}

/-! ## One tick -/

theorem clockInterrupt_tickdelta (usec : Int) (c : Clock) :
    (clockInterrupt usec c).tickdelta = c.tickdelta := by
  unfold clockInterrupt
  split
  · rfl
  split
  · split <;> rfl
  · rfl

theorem ticks_tickdelta (c : Clock) (u : Nat → Int) (k : Nat) :
    (ticks c u k).tickdelta = c.tickdelta := by
  induction k with
  | zero => rfl
  | succ k ih => rw [ticks, clockInterrupt_tickdelta, ih]

theorem clockInterrupt_spec (c : Clock) (usec : Int) (h : c.tickdelta < usec) :
    (clockInterrupt usec c).timedelta = (if c.timedelta = 0 then 0
          else if c.timedelta < 0 then toInt (c.timedelta + c.tickdelta)
          else toInt (c.timedelta - c.tickdelta)) ∧
      (clockInterrupt usec c).time.total - c.time.total =
        (if c.timedelta = 0 then toInt (usec * 1000)
          else if c.timedelta < 0 then toInt ((usec - c.tickdelta) * 1000)
          else toInt ((usec + c.tickdelta) * 1000)) := by
  unfold clockInterrupt
  split
  · next h0 =>
    refine ⟨h0, ?_⟩
    rw [Clock.addNanos, TimeValue64.total_addNanos]
    exact add_sub_cancel_left _ _
  · split <;>
    · refine ⟨rfl, ?_⟩
      rw [Clock.addNanos, TimeValue64.total_addNanos, toInt_toInt_mul]
      exact add_sub_cancel_left _ _

/-! ## Requests that are not negative -/

theorem rounded_mod {x : Int} (h1 : 18446744071562067968 ≤ x) (h2 : x < 18446744073709551616) :
    let q := toInt (if x % 50 ≠ 0 then x / 50 * 50 else x)
    q % 50 ≠ 0 ∧ -2147483648 ≤ q ∧ q < 2147483648 := by
  have hq : ∃ y, (if x % 50 ≠ 0 then x / 50 * 50 else x) = y * 50 ∧ y = x / 50 := by
    refine ⟨x / 50, ?_, rfl⟩
    split
    · rfl
    · omega
  obtain ⟨y, he, hy⟩ := hq
  rw [he]
  have h3 : 368934881431241359 ≤ y := by omega
  have h4 : y ≤ 368934881474191032 := by omega
  clear he hy h1 h2
  unfold toInt
  dsimp only
  have hmod : y * 50 % 4294967296 = y * 50 - 18446744069414584320 := by omega
  rw [hmod]
  split <;> omega

section

variable (h0 : c.timedelta = 0) (hlo : -2147483648 ≤ new.micros) (hhi : new.micros < 2147483648)

include h0 hlo hhi

theorem adjust_nonneg (hm : 0 ≤ new.micros) :
    (hostAdjustTime64 new c).2.tickdelta = rate new.micros ∧
      (hostAdjustTime64 new c).2.timedelta = span new.micros * rate new.micros := by
  have hmod : new.micros % 18446744073709551616 = new.micros := by omega
  unfold hostAdjustTime64
  dsimp only
  rw [if_pos h0, hmod]
  refine ⟨rfl, ?_⟩
  have hr : (if new.micros > bigadj then 10 * tickadj else tickadj) = rate new.micros := rfl
  rw [hr]
  have hspan : (span new.micros : Int) = new.micros / rate new.micros := by
    unfold span
    rcases rate_cases new.micros with h | h <;> rw [h] <;> omega
  rw [hspan]
  rcases rate_cases new.micros with h | h
  · rw [h]
    split <;> rw [toInt_eq]
    omega
  · rw [h]
    split <;> rw [toInt_eq]
    omega

theorem adjust_negative (hm : new.micros < 0) : (hostAdjustTime64 new c).2.tickdelta = 50 ∧
      (hostAdjustTime64 new c).2.timedelta % 50 ≠ 0 ∧
      -2147483648 ≤ (hostAdjustTime64 new c).2.timedelta ∧
      (hostAdjustTime64 new c).2.timedelta < 2147483648 := by
  have hmod : new.micros % 18446744073709551616 = new.micros + 18446744073709551616 := by omega
  have hbig : new.micros + 18446744073709551616 > bigadj := by
    unfold bigadj
    omega
  have hten : 10 * tickadj = 50 := rfl
  unfold hostAdjustTime64
  dsimp only
  rw [if_pos h0, hmod, if_pos hbig, hten]
  exact ⟨rfl, rounded_mod (by omega) (by omega)⟩

end

theorem left_succ {n k : Nat} {d : Int} (hpos : 0 < d) (hk : k < n) :
    ((n - k : Nat) : Int) * d = ((n - (k + 1) : Nat) : Int) * d + d ∧ 0 ≤ ((n - (k + 1) : Nat) : Int) * d := by
  refine ⟨?_, Int.mul_nonneg (Int.natCast_nonneg _) (Int.le_of_lt hpos)⟩
  rw [show n - k = n - (k + 1) + 1 by omega, Int.natCast_succ, Int.add_mul, Int.one_mul]

section

-- a clock that has to be put forward by `n` steps of `d`
variable {n : Nat} {d : Int} (hd : c.tickdelta = d) (hn : c.timedelta = n * d) (hpos : 0 < d)
  (hfit : (n : Int) * d < 2147483648) (hu : ∀ k, d < u k ∧ u k < 2147483648)

include hd hn hpos hfit hu

theorem timedelta_positive (k : Nat) : (ticks c u k).timedelta = ((n - k : Nat) : Int) * d := by
  induction k with
  | zero => exact hn
  | succ k ih =>
    have htd := ticks_tickdelta c u k
    have hstep := (clockInterrupt_spec (ticks c u k) (u k) (by rw [htd, hd]; exact (hu k).1)).1
    rw [ticks, hstep, ih, htd, hd]
    by_cases hk : n ≤ k
    · have e1 : n - k = 0 := by omega
      have e2 : n - (k + 1) = 0 := by omega
      rw [e1, e2, Int.natCast_zero, Int.zero_mul, if_pos rfl]
    · obtain ⟨hsucc, h0⟩ := left_succ hpos (Nat.lt_of_not_le hk)
      have hle : ((n - k : Nat) : Int) * d ≤ (n : Int) * d :=
        Int.mul_le_mul_of_nonneg_right (by omega) (Int.le_of_lt hpos)
      rw [if_neg (by omega), if_neg (by omega), hsucc, Int.add_sub_cancel]
      exact toInt_eq

theorem added_positive (k : Nat) : added c u k = toInt ((u k + if k < n then d else 0) * 1000) := by
  have htd := ticks_tickdelta c u k
  have hstep := (clockInterrupt_spec (ticks c u k) (u k) (by rw [htd, hd]; exact (hu k).1)).2
  have hleft := timedelta_positive hd hn hpos hfit hu k
  rw [added, ticks, hstep, hleft, htd, hd]
  by_cases hk : k < n
  · obtain ⟨hsucc, h0⟩ := left_succ hpos hk
    rw [if_neg (by omega), if_neg (by omega), if_pos hk]
  · have e1 : n - k = 0 := by omega
    rw [e1, Int.natCast_zero, Int.zero_mul, if_pos rfl, if_neg hk, Int.add_zero]

theorem eq_of_converges {m : Int} {n' : Nat} (h : Converges c m u n') : n' = n := by
  have hleft := timedelta_positive hd hn hpos hfit hu
  rcases Nat.lt_trichotomy n' n with hlt | heq | hgt
  · have hz := h.zero
    rw [hleft n'] at hz
    rcases Int.mul_eq_zero.mp hz with h0 | h0 <;> omega
  · exact heq
  · have hz : (ticks c u n).timedelta = 0 := by
      rw [hleft n, Nat.sub_self, Int.natCast_zero, Int.zero_mul]
    have htow := h.towards n hgt
    dsimp only at htow
    omega

end

theorem toInt_le {x : Int} (h : 0 ≤ x) : toInt x ≤ x ∧ (toInt x = x ↔ x < 2147483648) := by
  unfold toInt
  split <;> omega

/-! ## Negative requests -/

theorem timedelta_negative (hd : c.tickdelta = 50) (hc : c.timedelta % 50 ≠ 0)
    (hlo : -2147483648 ≤ c.timedelta) (hhi : c.timedelta < 2147483648) (hu : ∀ k, 50 < u k)
    (k : Nat) : (ticks c u k).timedelta % 50 ≠ 0 ∧ -2147483648 ≤ (ticks c u k).timedelta ∧
      (ticks c u k).timedelta < 2147483648 := by
  induction k with
  | zero => exact ⟨hc, hlo, hhi⟩
  | succ k ih =>
    have htd := ticks_tickdelta c u k
    have hstep := (clockInterrupt_spec (ticks c u k) (u k) (by rw [htd, hd]; exact hu k)).1
    rw [ticks, hstep, htd, hd]
    split
    · omega
    split
    · rw [toInt_eq]
      omega
    · rw [toInt_eq]
      omega

/-! ## Every request -/

/-- The ticks are short enough for what they add to be an `int`. -/
def Short (m : Int) (u : Nat → Int) : Prop :=
  ∀ k, (u k + if k < span m then rate m else 0) * 1000 < 2147483648

section

variable {m : Int} (hd : c.tickdelta = rate m) (hn : c.timedelta = span m * rate m)
  (hm : 0 ≤ m) (hhi : m < 2147483648) (hu : ∀ k, rate m < u k ∧ u k < 2147483648)

include hm in
theorem span_mul_rate : (span m : Int) * rate m = m.tdiv (rate m) * rate m ∧
    (span m : Int) * rate m ≤ m := by
  unfold span
  rw [Int.tdiv_eq_ediv_of_nonneg hm]
  rcases rate_cases m with h | h <;> rw [h] <;> omega

include hm hhi in
theorem span_fits : (span m : Int) * rate m < 2147483648 :=
  Int.lt_of_le_of_lt (span_mul_rate hm).2 hhi

include hd hn hm hhi hu

theorem sum_added : ∑ k ∈ Finset.range (span m), (added c u k - u k * 1000) =
    m.tdiv c.tickdelta * c.tickdelta * 1000 -
      ∑ k ∈ Finset.range (span m), ((u k + rate m) * 1000 - toInt ((u k + rate m) * 1000)) := by
  have hpos : 0 < rate m := by
    rcases rate_cases m with h | h <;> omega
  have hterm : ∀ k ∈ Finset.range (span m), added c u k - u k * 1000 =
      rate m * 1000 - ((u k + rate m) * 1000 - toInt ((u k + rate m) * 1000)) := by
    intro k hk
    rw [added_positive hd hn hpos (span_fits hm hhi) hu k, if_pos (mem_range.mp hk)]
    omega
  rw [sum_congr rfl hterm, sum_sub_distrib, sum_const, card_range,
    hd, ← (span_mul_rate hm).1, nsmul_eq_mul, mul_assoc]

theorem converges_iff : (∃ n, Converges c m u n) ↔ Short m u := by
  have hpos : 0 < rate m := by
    rcases rate_cases m with h | h <;> omega
  have hfit := span_fits hm hhi
  have hleft := timedelta_positive hd hn hpos hfit hu
  have hadd := added_positive hd hn hpos hfit hu
  have hnonneg : ∀ k ∈ Finset.range (span m),
      0 ≤ (u k + rate m) * 1000 - toInt ((u k + rate m) * 1000) := by
    intro k _
    have := (hu k).1
    have := (toInt_le (x := (u k + rate m) * 1000) (by omega)).1
    omega
  have hsum := sum_added hd hn hm hhi hu
  constructor
  · rintro ⟨n, h⟩ k
    have hn' := eq_of_converges hd hn hpos hfit hu h
    subst hn'
    have huk := (hu k).1
    by_cases hk : k < span m
    · -- the sum of what has wrapped around is 0, and so is each part of it
      rw [if_pos hk]
      rw [h.sum] at hsum
      have hzero : ∑ k ∈ Finset.range (span m),
          ((u k + rate m) * 1000 - toInt ((u k + rate m) * 1000)) = 0 := by omega
      have := (sum_eq_zero_iff_of_nonneg hnonneg).mp hzero k (mem_range.mpr hk)
      exact (toInt_le (by omega)).2.mp (by omega)
    · rw [if_neg hk]
      have hk' := (h.after k (by omega)).2
      rw [hadd k, if_neg hk] at hk'
      exact (toInt_le (by omega)).2.mp (by omega)
  · intro hshort
    refine ⟨span m, ?_, ?_, ?_, ?_⟩
    · intro k hk
      dsimp only
      rw [hleft, hleft]
      have := left_succ hpos hk
      omega
    · rw [hleft, Nat.sub_self, Int.natCast_zero, Int.zero_mul]
    · rw [hsum, sum_eq_zero, Int.sub_zero]
      intro k hk
      have hk' := hshort k
      rw [if_pos (mem_range.mp hk)] at hk'
      have := (hu k).1
      have := (toInt_le (x := (u k + rate m) * 1000) (by omega)).2.mpr hk'
      omega
    · intro k hk
      have hk' := hshort k
      rw [if_neg (by omega)] at hk'
      have := (hu k).1
      constructor
      · rw [hleft, Nat.sub_eq_zero_of_le hk, Int.natCast_zero, Int.zero_mul]
      · rw [hadd, if_neg (by omega)]
        have := (toInt_le (x := (u k + 0) * 1000) (by omega)).2.mpr hk'
        omega

end

/-- **An adjustment is made in finitely many ticks, and exactly**, if and only if it is not
negative, and no tick is so long that what it adds is not an `int`. -/
theorem adjustment_exact (c : Clock) (new : TimeValue64) (u : Nat → Int)
    (h0 : c.timedelta = 0) (hlo : -2147483648 ≤ new.micros) (hhi : new.micros < 2147483648)
    (hu : ∀ k, (hostAdjustTime64 new c).2.tickdelta < u k ∧ u k < 2147483648) :
    (∃ n, Converges (hostAdjustTime64 new c).2 new.micros u n) ↔
      0 ≤ new.micros ∧ Short new.micros u := by
  by_cases hm : 0 ≤ new.micros
  · obtain ⟨hd, hn⟩ := adjust_nonneg h0 hlo hhi hm
    rw [hd] at hu
    rw [converges_iff hd hn hm hhi hu]
    exact ⟨fun h => ⟨hm, h⟩, fun h => h.2⟩
  · obtain ⟨hd, hmod, h1, h2⟩ := adjust_negative h0 hlo hhi (Int.not_le.mp hm)
    constructor
    · rintro ⟨n, h⟩
      have hne := (timedelta_negative hd hmod h1 h2 (fun k => hd ▸ (hu k).1) n).1
      rw [h.zero] at hne
      exact absurd rfl hne
    · intro h
      exact absurd h.1 hm

def bootClock : Clock := ⟨⟨0, 0⟩, ⟨0, 0⟩, 0, 0⟩

/-- A second and 12 microseconds are made by ticks of 10 ms. -/
theorem second_adjusted : ∃ n,
    Converges (hostAdjustTime64 ⟨1, 12000⟩ bootClock).2 1000012 (fun _ => 10000) n := by
  refine (adjustment_exact bootClock ⟨1, 12000⟩ (fun _ => 10000) rfl (by decide) (by decide)
    ?_).mpr ⟨by decide, ?_⟩
  · intro k
    decide
  intro k
  show (10000 + if k < span 1000012 then rate 1000012 else 0) * 1000 < 2147483648
  split
  · decide
  · decide

/-- Putting the clock back by 100 microseconds leaves 116 of them in `timedelta`. Steps of 50
lead from there to -16, to 34 and to -16 again. -/
theorem negative_not_exact : (hostAdjustTime64 ⟨0, -100000⟩ bootClock).2.timedelta = -116 ∧
      (ticks (hostAdjustTime64 ⟨0, -100000⟩ bootClock).2 (fun _ => 10000) 2).timedelta = -16 ∧
      (ticks (hostAdjustTime64 ⟨0, -100000⟩ bootClock).2 (fun _ => 10000) 3).timedelta = 34 ∧
      (ticks (hostAdjustTime64 ⟨0, -100000⟩ bootClock).2 (fun _ => 10000) 4).timedelta = -16 ∧
      ¬ ∃ n, Converges (hostAdjustTime64 ⟨0, -100000⟩ bootClock).2 (-100) (fun _ => 10000) n := by
  refine ⟨by decide, by decide, by decide, by decide, ?_⟩
  rintro ⟨n, h⟩
  have hne := (timedelta_negative (c := (hostAdjustTime64 ⟨0, -100000⟩ bootClock).2)
    (u := fun _ => 10000) (by decide) (by decide) (by decide) (by decide) (fun _ => by decide) n).1
  rw [h.zero] at hne
  exact absurd rfl hne

end Mach.Kern.MachClock
