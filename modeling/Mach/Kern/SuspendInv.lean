import Mach.Kern.Suspend
import Mach.Lib.Pool

/-!
# Suspension is counted and effective

The suspend count is the number of holds (`Inv.count`), and the thread is marked suspended
while there are any. A call that has found the thread stopped can rely on it as long as its
hold lasts, except that `thread_halt` may make it run to a clean point (`Inv.still`).

`thread_suspend` does not always look. When the thread has been suspended before, it
returns at once, and then the thread may not have stopped yet; `Careful` leaves such calls
out. It also leaves out that the thread marks itself halted when the hold for which it does
so is gone: `thread_halt` then counts a hold without suspending the thread; and that a count
is at `INT_MAX` when it is incremented, and becomes negative.
-/

namespace Mach.Kern.Suspend

open Mach.Lib List Option Call Bool Thread Pool Place

variable {s s' : Sys} {t : Thread} {i : Nat} {c c' : Call}

/-! ## The thread -/

structure Thread.Ok (t : Thread) : Prop where
  place : t.place = .off ↔ t.run = false
  unint : t.run = false → t.unint = true → t.wait = true
  susp : t.susp = true ↔ 0 < t.suspendCount
  halted : t.halted = true → t.susp = true
  nonneg : 0 ≤ t.suspendCount
  max : t.suspendCount ≤ intMax

def Thread.Quiet (t : Thread) : Prop := t.run = false ∧ t.unint = false

theorem Thread.Ok.of_run (hrun : t.run = true) (hplace : t.place ≠ .off)
    (hsusp : t.susp = true ↔ 0 < t.suspendCount) (hhalted : t.halted = true → t.susp = true)
    (hnonneg : 0 ≤ t.suspendCount) (hmax : t.suspendCount ≤ intMax) : t.Ok := by
  have hne : t.run ≠ false := by rw [hrun]; exact Bool.noConfusion
  exact ⟨iff_of_false hplace hne, fun h => absurd h hne, hsusp, hhalted, hnonneg, hmax⟩

theorem Thread.Ok.hold_eq (h : t.Ok) (hroom : t.suspendCount < intMax) :
    t.hold = { t with suspendCount := t.suspendCount + 1, susp := true } := by
  have := h.nonneg
  rw [Thread.hold, int_eq (by omega) (by omega)]

theorem Thread.Ok.hold (h : t.Ok) (hroom : t.suspendCount < intMax) : t.hold.Ok := by
  have := h.nonneg
  rw [h.hold_eq hroom]
  refine ⟨h.place, h.unint, iff_of_true rfl ?_, fun _ => rfl, ?_, ?_⟩ <;>
  · simp only
    omega

section

variable (h : t.Ok) (hpos : 0 < t.suspendCount)
include h hpos

theorem Thread.Ok.pred : int (t.suspendCount - 1) = t.suspendCount - 1 := by
  have := h.max
  exact int_eq (by omega) (by omega)

theorem Thread.Ok.release : t.release.Ok := by
  have hmax := h.max
  unfold Thread.release
  simp only [h.pred hpos]
  split
  next hzero =>
    split
    next hoff =>
      refine .of_run rfl noConfusion ?_ (fun h => absurd h false_ne_true) ?_ ?_
      · simp only [Thread.setrun]
        exact iff_of_false false_ne_true (by omega)
      all_goals
        simp only [Thread.setrun]
        omega
    next =>
      refine ⟨h.place, h.unint, ?_, fun h => absurd h false_ne_true, ?_, ?_⟩
      · simp only
        exact iff_of_false false_ne_true (by omega)
      all_goals
        simp only
        omega
  next hmore =>
    have hsusp := h.susp.mpr hpos
    refine ⟨h.place, h.unint, iff_of_true hsusp ?_, h.halted, ?_, ?_⟩
    all_goals
      simp only
      omega

theorem Thread.Ok.release_of_ne (hne : t.suspendCount ≠ 1) :
    t.release = { t with suspendCount := t.suspendCount - 1 } := by
  unfold Thread.release
  simp only [h.pred hpos]
  exact if_neg (by omega)

theorem Thread.Ok.release_counts : t.release.suspendCount = t.suspendCount - 1 ∧
    t.release.userStopCount = t.userStopCount := by
  unfold Thread.release
  simp only [h.pred hpos]
  split
  · split
    · exact ⟨rfl, rfl⟩
    · exact ⟨rfl, rfl⟩
  · exact ⟨rfl, rfl⟩

end

theorem Thread.Ok.clearWait (h : t.Ok) (interruptOnly : Bool) : (t.clearWait interruptOnly).Ok := by
  unfold Thread.clearWait
  split
  · exact h
  split
  next hwait =>
    split
    · exact .of_run rfl noConfusion h.susp h.halted h.nonneg h.max
    next hstay =>
      refine ⟨h.place, fun hrun hunint => ?_, h.susp, h.halted, h.nonneg, h.max⟩
      have hrun' : t.run = false := hrun
      have hunint' : t.unint = true := hunint
      exact absurd ⟨by rw [hrun']; exact false_ne_true, .inl hunint'⟩ hstay
  · exact h

theorem Thread.Quiet.clearWait (h : t.Quiet) (hsusp : t.susp = true) (interruptOnly : Bool) :
    (t.clearWait interruptOnly).Quiet := by
  unfold Thread.clearWait
  split
  · exact h
  split
  · split
    next hgo =>
      rcases hgo.2 with hu | hs
      · rw [h.2] at hu
        cases hu
      · exact absurd hsusp hs
    next => exact h
  · exact h

theorem Thread.clearWait_counts (t : Thread) (interruptOnly : Bool) :
    (t.clearWait interruptOnly).suspendCount = t.suspendCount ∧
      (t.clearWait interruptOnly).userStopCount = t.userStopCount := by
  unfold clearWait
  split
  · exact ⟨rfl, rfl⟩
  split
  · split
    · exact ⟨rfl, rfl⟩
    · exact ⟨rfl, rfl⟩
  · exact ⟨rfl, rfl⟩

/-! ## The calls -/

def Waiter.period : Waiter → Option Nat
  | .suspend e => some e
  | .hold | .halt _ => none

def Call.period : Call → Option Nat
  | .suspended e => some e
  | .dowait w _ | .notify w => w.period
  | _ => none

def Call.grants (period : Nat) : Call → Bool
  | .suspended e | .notify (.suspend e) => e = period
  | .stopped | .notify .hold => true
  | _ => false

theorem Call.holds_wake (awakened : Bool) (c : Call) : (c.wake awakened).holds = c.holds := by
  unfold Call.wake
  split <;> rfl

theorem Call.period_wake (awakened : Bool) (c : Call) : (c.wake awakened).period = c.period := by
  unfold Call.wake
  split <;> rfl

theorem Call.grants_wake (awakened : Bool) (c : Call) (period : Nat) :
    (c.wake awakened).grants period = c.grants period := by
  unfold Call.wake
  split <;> rfl

theorem Call.holds_of_grants {period : Nat} (h : c.grants period = true) :
    c.holds = true ∨ c.period = some period := by
  unfold Call.grants at h
  split at h
  · exact .inr (congrArg some (of_decide_eq_true h))
  · exact .inr (congrArg some (of_decide_eq_true h))
  · exact .inl rfl
  · exact .inl rfl
  · cases h

theorem Call.grants_of_holds {p q : Nat} (hh : c.holds = true) (h : c.grants p = true) :
    c.grants q = true := by
  unfold Call.grants at h
  split at h
  · cases hh
  · cases hh
  · rfl
  · rfl
  · cases h

structure Inv (s : Sys) : Prop where
  ok : s.thread.Ok
  user : 0 ≤ s.thread.userStopCount ∧ s.thread.userStopCount ≤ intMax
  count : s.thread.suspendCount =
    (if 0 < s.thread.userStopCount then 1 else 0) + (s.calls.countP Call.holds : Nat)
  period : ∀ c ∈ s.calls, ∀ e, c.period = some e →
    e ≤ s.period ∧ (e = s.period → 0 < s.thread.userStopCount)
  still : ∀ c ∈ s.calls, c.grants s.period = true → s.thread.Quiet ∨ s.forced = true

def Sys.Still (s : Sys) : Prop := s.thread.Quiet ∨ s.forced = true

theorem Sys.Still.release (h : s.Still) (hok : s.thread.Ok) (hpos : 0 < s.thread.suspendCount)
    (hmore : s.thread.suspendCount ≠ 1) : s.release.Still := by
  unfold Sys.Still Sys.release
  rw [hok.release_of_ne hpos hmore]
  rcases h with hq | hf
  · exact .inl hq
  · exact .inr (by rw [hf]; simpa using hmore)

theorem Waiter.next_holds (w : Waiter) (ok : Bool) (sleep : Sleep) :
    (w.next ok).holds = (Call.dowait w sleep).holds := by
  cases w with
  | suspend e => rfl
  | hold => rfl
  | halt must => cases ok <;> rfl

theorem Waiter.next_period {w : Waiter} {ok : Bool} {e : Nat} (h : (w.next ok).period = some e) :
    w.period = some e := by
  cases w with
  | suspend e => exact h
  | hold => cases h
  | halt must => cases ok <;> cases h

theorem Thread.Ok.quiet (h : t.Ok) (hsusp : t.susp = true)
    (hstop : ¬ (t.susp = true ∧ (t.run = true ∨ t.wait = true ∧ t.unint = true))) : t.Quiet := by
  have hrun : t.run = false := by
    rw [eq_false_iff]
    intro hrun
    exact hstop ⟨hsusp, .inl hrun⟩
  refine ⟨hrun, ?_⟩
  rw [eq_false_iff]
  intro hunint
  exact hstop ⟨hsusp, .inr ⟨h.unint hrun hunint, hunint⟩⟩

theorem haltLoop_goto (must : Bool) : haltLoop (s.goto i c) i must = haltLoop s i must := by
  simp only [haltLoop, Sys.goto, set_set]

theorem wakeup_getElem? (h : s.calls[i]? = some c) (awakened : Bool) :
    (s.wakeup awakened).calls[i]? = some (c.wake awakened) := by
  simp [Sys.wakeup, h, map_some]

section

variable (hi : Inv s)
include hi

theorem Inv.susp_of_holds (hc : c ∈ s.calls) (h : c.holds = true) : 0 < s.thread.suspendCount := by
  have hpos : 0 < s.calls.countP Call.holds := countP_pos_iff.mpr ⟨c, hc, h⟩
  have := hi.count
  split at this <;> omega

theorem Inv.susp_of_grants (hc : c ∈ s.calls) (h : c.grants s.period = true) :
    s.thread.susp = true := by
  rw [hi.ok.susp]
  rcases holds_of_grants h with hh | hp
  · exact hi.susp_of_holds hc hh
  · have huser := (hi.period c hc _ hp).2 rfl
    have := hi.count
    omega

theorem Inv.own {f : Bool} (hok : t.Ok)
    (hstill : s.thread.susp = true → s.Still → t.Quiet ∨ f = true)
    (hcount : t.suspendCount = s.thread.suspendCount)
    (huser : t.userStopCount = s.thread.userStopCount) :
    Inv { s with thread := t, forced := f } where
  ok := hok
  user := by
    simp only [huser]
    exact hi.user
  count := by
    simp only [hcount, huser]
    exact hi.count
  period c hc e he := by
    simp only [huser]
    exact hi.period c hc e he
  still c hc hg := hstill (hi.susp_of_grants hc hg) (hi.still c hc hg)

theorem Inv.wakeup (awakened : Bool) : Inv (s.wakeup awakened) where
  ok := hi.ok
  user := hi.user
  count := by
    simp only [Sys.wakeup]
    rw [countP_map_of_eq (holds_wake awakened)]
    exact hi.count
  period c hc e he := by
    obtain ⟨c', hc', rfl⟩ := List.mem_map.mp hc
    rw [period_wake] at he
    exact hi.period c' hc' e he
  still c hc hg := by
    obtain ⟨c', hc', rfl⟩ := List.mem_map.mp hc
    rw [grants_wake] at hg
    exact hi.still c' hc' hg

def Thread.Room (t : Thread) : Prop := t.userStopCount < intMax ∧ t.suspendCount < intMax

def Balanced (t t' : Thread) (c c' : Call) : Prop :=
  t'.suspendCount - (if 0 < t'.userStopCount then 1 else 0) + c.holds.toNat =
    t.suspendCount - (if 0 < t.userStopCount then 1 else 0) + c'.holds.toNat

theorem inv_hold (hroom : s.thread.suspendCount < intMax) :
    Inv { s with thread := s.thread.hold, calls := s.calls ++ [.held] } := by
  have hok := hi.ok.hold hroom
  rw [hi.ok.hold_eq hroom] at hok ⊢
  refine ⟨hok, hi.user, ?_, Pool.forall_mem_append hi.period fun e he => ?_,
    Pool.forall_mem_append hi.still fun hg => ?_⟩
  · have := hi.count
    rw [Pool.countP_append]
    simp only [Call.holds, toNat_true]
    omega
  · cases he
  · cases hg

theorem Inv.start (hc : c.isStart = true) : Inv { s with calls := s.calls ++ [c] } := by
  have hnone : c.holds = false ∧ c.period = none ∧ c.grants s.period = false := by
    cases c with
    | suspend | halt => exact ⟨rfl, rfl, rfl⟩
    | _ => cases hc
  obtain ⟨hholds, hperiod, hgrants⟩ := hnone
  refine ⟨hi.ok, hi.user, ?_, ?_, ?_⟩
  · rw [Pool.countP_append, hholds]
    exact hi.count
  · refine Pool.forall_mem_append hi.period fun e he => ?_
    rw [hperiod] at he
    cases he
  · refine Pool.forall_mem_append hi.still fun hg => ?_
    rw [hgrants] at hg
    cases hg

section

variable (h : s.calls[i]? = some c)
include h

theorem Inv.section {f : Bool} (hok : t.Ok)
    (hcount : Balanced s.thread t c c') (huser : 0 < s.thread.userStopCount → 0 < t.userStopCount)
    (hrange : 0 ≤ t.userStopCount ∧ t.userStopCount ≤ intMax)
    (hperiod : ∀ e, c'.period = some e → e ≤ s.period ∧ (e = s.period → 0 < t.userStopCount))
    (hstill : s.thread.susp = true → s.Still → t.Quiet ∨ f = true)
    (hnew : c'.grants s.period = true → t.Quiet ∨ f = true) :
    Inv ({ s with thread := t, forced := f }.goto i c') where
  ok := hok
  user := hrange
  count := by
    have hset := countP_set h Call.holds c'
    have hold := hi.count
    unfold Balanced at hcount
    simp only [Sys.goto]
    omega
  period := by
    refine forall_mem_set (fun c hc e he => ?_) hperiod i
    have := hi.period c hc e he
    exact ⟨this.1, fun heq => huser (this.2 heq)⟩
  still := by
    refine forall_mem_set (fun c hc hg => ?_) hnew i
    exact hstill (hi.susp_of_grants hc hg) (hi.still c hc hg)

theorem Inv.goto (hholds : c'.holds = c.holds)
    (hperiod : ∀ e, c'.period = some e → c.period = some e)
    (hnew : c'.grants s.period = true → s.Still) : Inv (s.goto i c') := by
  refine hi.section h hi.ok ?_ id hi.user (fun e he => hi.period c (mem_of_getElem? h) e (hperiod e he))
    (fun _ hs => hs) hnew
  unfold Balanced
  rw [hholds]

theorem Inv.pass (hholds : c'.holds = c.holds)
    (hperiod : c'.period = none) (hgrants : c'.grants s.period = false) : Inv (s.goto i c') :=
  hi.goto h hholds (fun e he => by rw [hperiod] at he; cases he) fun hg => by
    rw [hgrants] at hg
    cases hg

/-! ## Holding and releasing -/

theorem Inv.release (hc : c.holds = true) : Inv (s.release.goto i .done) := by
  have hpos := hi.susp_of_holds (mem_of_getElem? h) hc
  have hset := countP_set h Call.holds .done
  rw [hc] at hset
  simp only [Call.holds, toNat_true, toNat_false] at hset
  obtain ⟨hsusp, huser⟩ := hi.ok.release_counts hpos
  have hcount := hi.count
  refine ⟨hi.ok.release hpos, ?_, ?_, ?_, ?_⟩
  · simp only [Sys.goto, Sys.release, huser]
    exact hi.user
  · simp only [Sys.goto, Sys.release, hsusp, huser]
    split at hcount
    next hu => rw [if_pos hu]; omega
    next hu => rw [if_neg hu]; omega
  · refine forall_mem_set (fun c' hc' e he => ?_) nofun i
    simp only [Sys.goto, Sys.release, huser]
    exact hi.period c' hc' e he
  · intro c' hc' hg
    simp only [Sys.goto, Sys.release] at hc' hg ⊢
    by_cases hlast : s.thread.suspendCount = 1
    · -- nobody is left
      exfalso
      split at hcount
      next => omega
      next hu =>
        rcases holds_of_grants hg with hh | hp
        · have : 0 < (s.calls.set i Call.done).countP Call.holds := countP_pos_iff.mpr ⟨c', hc', hh⟩
          omega
        · rcases mem_or_eq_of_mem_set hc' with hc' | rfl
          · exact hu ((hi.period c' hc' _ hp).2 rfl)
          · cases hp
    · rcases mem_or_eq_of_mem_set hc' with hc' | rfl
      · exact Sys.Still.release (hi.still c' hc' hg) hi.ok hpos hlast
      · cases hg

end

theorem threadResume_inv : Inv (threadResume s).2 := by
  have hrange := hi.user
  unfold threadResume
  simp only
  split
  next hu =>
    have hcount := hi.count
    have hpred : int (s.thread.userStopCount - 1) = s.thread.userStopCount - 1 :=
      int_eq (by omega) (by omega)
    rw [if_pos hu] at hcount
    rw [hpred]
    split
    next hone =>
      -- the suspension is over
      have hpos : 0 < s.thread.suspendCount := by omega
      have hok : { s.thread with userStopCount := s.thread.userStopCount - 1 }.Ok := { hi.ok with }
      obtain ⟨hsusp, huser⟩ := hok.release_counts hpos
      refine ⟨hok.release hpos, ?_, ?_, ?_, ?_⟩
      · simp only [Sys.release, huser]
        omega
      · simp only [Sys.release, hsusp, huser]
        rw [if_neg (by omega)]
        omega
      · intro c hc e he
        have := (hi.period c hc e he).1
        simp only
        exact ⟨by omega, fun _ => by omega⟩
      · intro c hc hg
        -- only holds outlast it
        have hh : c.holds = true := by
          rcases holds_of_grants hg with hh | hp
          · exact hh
          · have := (hi.period c hc _ hp).1
            simp only at this
            omega
        have hmany : 0 < s.calls.countP Call.holds := countP_pos_iff.mpr ⟨c, hc, hh⟩
        have hne : s.thread.suspendCount ≠ 1 := by omega
        have hstill : Sys.Still { s with
            thread := { s.thread with userStopCount := s.thread.userStopCount - 1 } } :=
          hi.still c hc (grants_of_holds hh hg)
        exact hstill.release hok hpos hne
    next hmore =>
      refine ⟨{ hi.ok with }, ?_, ?_, ?_, hi.still⟩
      · simp only
        omega
      · simp only
        rw [if_pos (by omega)]
        exact hcount
      · intro c hc e he
        simp only
        have := hi.period c hc e he
        exact ⟨this.1, fun _ => by omega⟩
  next => exact hi

/-! ## The sections of the calls -/

theorem Inv.susp_of_next {w : Waiter} {ok : Bool} {sleep : Sleep}
    (h : s.calls[i]? = some (.dowait w sleep)) (hg : (w.next ok).grants s.period = true) :
    s.thread.susp = true := by
  have hmem := mem_of_getElem? h
  rw [hi.ok.susp]
  cases w with
  | suspend e =>
    have huser := (hi.period _ hmem e rfl).2 (of_decide_eq_true hg)
    have := hi.count
    omega
  | hold => exact hi.susp_of_holds hmem rfl
  | halt must => cases ok <;> cases hg

theorem threadDowait_inv {w : Waiter} {awakened : Bool}
    (h : s.calls[i]? = some (.dowait w (.awake awakened))) :
    Inv (threadDowait s i w awakened) := by
  have hperiod : ∀ ok e, (w.next ok).period = some e → w.period = some e :=
    fun ok e he => Waiter.next_period he
  unfold threadDowait
  simp only
  split
  next hfail =>
    refine hi.goto h (w.next_holds false _) (hperiod false) fun hg => ?_
    -- only `thread_halt` gives up
    cases w with
    | suspend | hold => exact absurd rfl hfail.2
    | halt must => cases hg
  next =>
    split
    next hrunq =>
      obtain ⟨hsusp, -, -, hunint, -⟩ := hrunq
      have hquiet : Thread.Quiet { s.thread with run := false, place := .off, wakeActive := false } :=
        ⟨rfl, eq_false_iff.mpr hunint⟩
      have hok : Thread.Ok { s.thread with run := false, place := .off, wakeActive := false } :=
        { hi.ok with place := iff_of_true rfl rfl, unint := fun _ hu => absurd hu hunint }
      have hstopped := hi.own (f := false) hok (fun _ _ => .inl hquiet) rfl rfl
      split
      · exact hstopped.goto h rfl (fun e he => he) fun _ => .inl hquiet
      · exact hstopped.goto h (w.next_holds true _) (hperiod true) fun _ => .inl hquiet
    next =>
      split
      next =>
        exact Inv.goto (hi.own { hi.ok with } (fun _ hs => hs) rfl rfl) h rfl (fun e he => he) nofun
      next hstop =>
        refine hi.goto h (w.next_holds true _) (hperiod true) fun hg => .inl ?_
        exact hi.ok.quiet (hi.susp_of_next h hg) hstop

theorem haltLoop_inv {must : Bool} (h : s.calls[i]? = some (.haltLock must)) :
    Inv (haltLoop s i must) := by
  unfold haltLoop
  simp only
  split <;>
  · exact Inv.pass (hi.own { hi.ok with } (fun _ hs => hs) rfl rfl) h rfl rfl rfl

theorem threadHalt_inv {must cycle : Bool} (h : s.calls[i]? = some (.halt must))
    (hroom : s.thread.suspendCount < intMax) : Inv (threadHalt s i must cycle) := by
  have hnonneg := hi.ok.nonneg
  have hsucc : int (s.thread.suspendCount + 1) = s.thread.suspendCount + 1 :=
    int_eq (by omega) (by omega)
  unfold threadHalt
  simp only
  split
  next hhalted =>
    have hsusp := hi.ok.halted hhalted
    rw [hsucc]
    refine hi.section h ⟨hi.ok.place, hi.ok.unint, iff_of_true hsusp ?_, hi.ok.halted, ?_, ?_⟩ ?_ id
      hi.user nofun (fun _ hs => hs) nofun
    · simp only
      omega
    · simp only
      omega
    · simp only
      omega
    · simp only [Balanced, Call.holds, toNat_true, toNat_false]
      omega
  next =>
    split
    · exact hi.pass h rfl rfl rfl
    rw [← haltLoop_goto]
    refine haltLoop_inv (hi.section h (hi.ok.hold hroom) ?_ id hi.user (fun e he => by cases he)
      (fun _ hs => hs) fun hg => by cases hg) (List.getElem?_set_self (List.getElem?_eq_some_iff.mp h).1)
    rw [hi.ok.hold_eq hroom]
    simp only [Balanced, Call.holds, toNat_true, toNat_false]
    omega

theorem haltMark_inv (h : s.calls[i]? = some .haltMark) :
    Inv ({ s with thread := { s.thread with halted := true, astHalt := false } }.goto i .haltReturned) := by
  have hsusp := hi.ok.susp.mpr (hi.susp_of_holds (mem_of_getElem? h) rfl)
  exact Inv.pass (hi.own { hi.ok with halted := fun _ => hsusp } (fun _ hs => hs) rfl rfl) h rfl
    rfl rfl

theorem haltForce_inv {must : Bool} (h : s.calls[i]? = some (.haltForce must))
    (hs : haltForce s i must = some s') : Inv s' := by
  unfold haltForce at hs
  simp only at hs
  split at hs
  · cases hs
  · cases hs
    exact Inv.pass (hi.own (.of_run rfl noConfusion hi.ok.susp hi.ok.halted hi.ok.nonneg hi.ok.max)
      (fun _ _ => .inr rfl) rfl rfl) h rfl rfl rfl

theorem threadSuspend_inv {self : Bool} (h : s.calls[i]? = some (.suspend self))
    (hunint : s.thread.unint = false) (hroom : s.thread.Room)
    (hstop : self = false → 0 < s.thread.userStopCount → s.thread.run = false ∨ s.forced = true) :
    Inv (threadSuspend s i self) := by
  obtain ⟨hnonneg, hmax⟩ := hi.user
  obtain ⟨huser, hsuspend⟩ := hroom
  have hsucc : int (s.thread.userStopCount + 1) = s.thread.userStopCount + 1 :=
    int_eq (by omega) (by omega)
  have hrange : 0 ≤ s.thread.userStopCount + 1 ∧ s.thread.userStopCount + 1 ≤ intMax := by omega
  have hpos : 0 < s.thread.userStopCount + 1 := by omega
  have hc : (Call.suspend self).holds = false := rfl
  unfold threadSuspend
  rw [hsucc]
  split
  next hfirst =>
    have hok : Thread.Ok { s.thread with userStopCount := s.thread.userStopCount + 1 } :=
      { hi.ok with }
    have hbal : ∀ c' : Call, c'.holds = false → Balanced s.thread
        (Thread.hold { s.thread with userStopCount := s.thread.userStopCount + 1 }) (.suspend self) c' := by
      intro c' hc'
      rw [hok.hold_eq hsuspend]
      simp only [Balanced, hc, hc', hfirst]
      simp
    refine hi.section h (hok.hold hsuspend) (hbal _ (by cases self <;> rfl)) (fun _ => hpos) hrange
      (fun e he => ?_) (fun _ hs => hs) fun hg => by cases self <;> cases hg
    cases self <;> cases he
    exact ⟨Nat.le_refl _, fun _ => hpos⟩
  next hmore =>
    have hsome : 0 < s.thread.userStopCount := by omega
    have hok : Thread.Ok { s.thread with userStopCount := s.thread.userStopCount + 1 } :=
      { hi.ok with }
    have hbal : ∀ c' : Call, c'.holds = false → Balanced s.thread
        { s.thread with userStopCount := s.thread.userStopCount + 1 } (.suspend self) c' := by
      intro c' hc'
      simp only [Balanced, hc, hc', if_pos hsome, if_pos hpos]
    refine hi.section h hok (hbal _ (by cases self <;> rfl)) (fun _ => hpos) hrange (fun e he => ?_)
      (fun _ hs => hs) fun hg => ?_
    · cases self <;> cases he
      exact ⟨Nat.le_refl _, fun _ => hpos⟩
    cases self with
    | true => cases hg
    | false => exact (hstop rfl hsome).imp_left fun hrun => ⟨hrun, hunint⟩

/-! ## Runs -/

/-- What the target may not do, and calls that count may not meet. -/
def Careful (s : Sys) : Act → Prop
  | .call i _ =>
    match s.calls[i]? with
    | some (.suspend self) => s.thread.Room ∧
        (self = false → 0 < s.thread.userStopCount → s.thread.run = false ∨ s.forced = true)
    | some (.halt _) => s.thread.suspendCount < intMax
    | _ => True
  | .hold => s.thread.suspendCount < intMax
  | .own .haltSelf => 0 < s.thread.suspendCount
  | _ => True

theorem callStep_inv {choice : Bool} (h : s.calls[i]? = some c) (hok : Careful s (.call i choice))
    (hs : callStep s i choice c = some s') : Inv s' := by
  simp only [Careful, h] at hok
  cases c with
  | suspend self =>
    simp only [callStep] at hs
    split at hs
    · cases hs
    rename_i hunint
    cases hs
    exact threadSuspend_inv hi h (eq_false_iff.mpr hunint) hok.1 hok.2
  | held =>
    simp only [callStep] at hs
    cases hs
    split
    · exact hi.pass h rfl rfl rfl
    · exact hi.release h rfl
  | stopped | haltRelease | haltReturned => cases hs; exact hi.release h rfl
  | dowait w sleep =>
    cases sleep with
    | asleep => cases hs
    | awake awakened =>
      cases hs
      exact threadDowait_inv hi h
  | notify w =>
    cases hs
    refine (hi.wakeup true).goto (wakeup_getElem? h true) (w.next_holds true .asleep)
      (fun e he => Waiter.next_period he) fun hg => ?_
    refine hi.still _ (mem_of_getElem? h) ?_
    cases w with
    | suspend e => exact hg
    | hold => rfl
    | halt must => cases hg
  | halt must => cases hs; exact threadHalt_inv hi h hok
  | haltSleep must sleep =>
    cases sleep with
    | asleep => cases hs
    | awake awakened =>
      simp only [callStep] at hs
      cases hs
      split
      · exact hi.pass h rfl rfl rfl
      · split <;> exact hi.pass h rfl rfl rfl
  | haltLock must => cases hs; exact haltLoop_inv hi h
  | haltClear must =>
    cases hs
    obtain ⟨hcount, huser⟩ := s.thread.clearWait_counts true
    exact (hi.own (hi.ok.clearWait true)
      (fun hsusp hst => hst.imp_left fun hq => hq.clearWait hsusp true) hcount huser).pass h rfl
      rfl rfl
  | haltCheck must =>
    cases hs
    unfold haltCheck
    split
    · exact hi.pass h rfl rfl rfl
    · split <;> exact hi.pass h rfl rfl rfl
  | haltMark => cases hs; exact haltMark_inv hi h
  | haltForce must => exact haltForce_inv hi h hs
  | haltFailed =>
    cases hs
    have hclear : Inv { s with thread := { s.thread with astHalt := false } } :=
      hi.own { hi.ok with } (fun _ hs => hs) rfl rfl
    exact (hclear.wakeup false).pass (wakeup_getElem? h false) rfl rfl rfl
  | suspended | done => cases hs

section

variable (hplace : s.thread.place ≠ .off)
include hplace

theorem Inv.forced (h : s.Still) : s.forced = true :=
  h.resolve_left fun hq => hplace (hi.ok.place.mpr hq.1)

theorem Inv.running {p : Place} (hp : p ≠ .off) (wait unint : Bool) :
    Inv { s with thread := { s.thread with place := p, wait := wait, unint := unint } } := by
  have hrun : s.thread.run = true := not_eq_false _ ▸ mt hi.ok.place.mpr hplace
  exact hi.own (.of_run hrun hp hi.ok.susp hi.ok.halted hi.ok.nonneg hi.ok.max)
    (fun _ hst => .inr (hi.forced hplace hst)) rfl rfl

theorem threadDispatch_inv (hs : threadDispatch s = some s') : Inv s' := by
  unfold threadDispatch at hs
  simp only at hs
  split at hs
  next hsusp =>
    have hstopped : Inv { s with
        thread := { s.thread with run := false, place := .off, wakeActive := false },
        forced := false } := by
      refine hi.own { hi.ok with
        place := iff_of_true rfl rfl, unint := fun _ hu => absurd hu hsusp.2.1 }
        (fun _ _ => .inl ⟨rfl, eq_false_iff.mpr hsusp.2.1⟩) rfl rfl
    split at hs
    · cases hs
      exact hstopped.wakeup true
    · cases hs
      exact hstopped
  next hstay =>
    split at hs
    · cases hs
    split at hs
    next hwait =>
      cases hs
      exact hi.own { hi.ok with place := iff_of_true rfl rfl, unint := fun _ _ => hwait }
        (fun _ hst => .inr (hi.forced hplace hst)) rfl rfl
    next =>
      cases hs
      exact hi.running hplace noConfusion ..

end

theorem ownStep_inv {a : Own} (hok : Careful s (.own a)) (hs : ownStep s a = some s') : Inv s' := by
  cases a with
  | assertWait interruptible =>
    obtain ⟨⟨hcpu, -⟩, ⟨⟩⟩ := ite_none_right_eq_some.mp hs
    exact hi.running (hcpu ▸ noConfusion) (hcpu ▸ noConfusion) ..
  | dispatch =>
    obtain ⟨hcpu, hs⟩ := ite_none_right_eq_some.mp hs
    exact threadDispatch_inv hi (hcpu ▸ noConfusion) hs
  | choose | swapin | invoke =>
    obtain ⟨hq, ⟨⟩⟩ := ite_none_right_eq_some.mp hs
    exact hi.running (hq ▸ noConfusion) noConfusion ..
  | wakeup interruptOnly =>
    cases hs
    obtain ⟨hcount, huser⟩ := s.thread.clearWait_counts interruptOnly
    exact hi.own (hi.ok.clearWait interruptOnly)
      (fun hsusp hst => hst.imp_left fun hq => hq.clearWait hsusp interruptOnly) hcount huser
  | notice =>
    simp only [ownStep] at hs
    split at hs
    · cases hs
      exact hi.own { hi.ok with } (fun _ hs => hs) rfl rfl
    · cases hs
  | haltSelf =>
    simp only [ownStep] at hs
    split at hs
    · cases hs
      exact hi.own { hi.ok with halted := fun _ => hi.ok.susp.mpr hok } (fun _ hs => hs) rfl rfl
    · cases hs

theorem step_inv {a : Act} (hok : Careful s a) (hs : step s a = some s') : Inv s' := by
  cases a with
  | own a => exact ownStep_inv hi hok hs
  | start c =>
    simp only [step] at hs
    obtain ⟨hstart, ⟨⟩⟩ := ite_none_right_eq_some.mp hs
    exact hi.start hstart
  | hold =>
    cases hs
    exact inv_hold hi hok
  | resume =>
    cases hs
    exact threadResume_inv hi
  | call i choice =>
    obtain ⟨c, hc, hs⟩ := bind_eq_some_iff.mp hs
    exact callStep_inv hi hc hok hs
  | interrupt i =>
    obtain ⟨c, hc, rfl⟩ := map_eq_some_iff.mp hs
    refine hi.goto hc (holds_wake false c) (fun e he => ?_) fun hg => ?_
    · rwa [period_wake] at he
    · rw [grants_wake] at hg
      exact hi.still c (mem_of_getElem? hc) hg

end

theorem inv_init (h : lts.init s) : Inv s := by
  obtain ⟨⟨hrun, hsusp, hhalted, hplace, huser, hcount⟩, hcalls, -⟩ := h
  refine ⟨.of_run hrun hplace ?_ ?_ ?_ ?_, ?_, ?_, ?_, ?_⟩
  · rw [hsusp, hcount]
    exact iff_of_false false_ne_true (Int.lt_irrefl 0)
  · intro h
    rw [hhalted] at h
    cases h
  · omega
  · rw [hcount]
    decide
  · rw [huser]
    decide
  · rw [hcount, huser, hcalls]
    rfl
  · intro c hc
    rw [hcalls] at hc
    cases hc
  · intro c hc
    rw [hcalls] at hc
    cases hc

theorem inv_of_reach (h : lts.Reach Careful s) : Inv s := by
  refine Lts.Reach.inv ?_ ?_ h
  · intro s h0
    exact inv_init h0
  · intro s a s' hi hok hs
    exact step_inv hi hok hs

/-- **Suspension is counted and effective.** -/
theorem suspension_effective (h : lts.Reach Careful s) : s.thread.suspendCount =
        (if 0 < s.thread.userStopCount then 1 else 0) + (s.calls.countP Call.holds : Nat) ∧
      (s.thread.susp = true ↔ 0 < s.thread.suspendCount) ∧
      ((threadResume s).1 = .failure ↔ s.thread.userStopCount = 0) ∧
      ∀ c ∈ s.calls, c = .suspended s.period ∨ c = .stopped →
        s.thread.place = .off ∨ s.forced = true := by
  have hi := inv_of_reach h
  refine ⟨hi.count, hi.ok.susp, ?_, fun c hc hor => ?_⟩
  · unfold threadResume
    simp only
    split
    next hu => exact iff_of_false KernReturn.noConfusion (by omega)
    next hu =>
      have := hi.user
      exact iff_of_true rfl (by omega)
  · have hg : c.grants s.period = true := by
      rcases hor with rfl | rfl
      · exact decide_eq_true rfl
      · rfl
    exact (hi.still c hc hg).imp_left fun hq => hi.ok.place.mpr hq.1

def running : Sys :=
  ⟨⟨true, false, false, false, false, .cpu, 0, 0, false, false, false⟩, [], 0, false⟩

theorem running_init : lts.init running := by
  refine ⟨⟨rfl, rfl, rfl, noConfusion, rfl, rfl⟩, rfl, rfl⟩

/-- `thread_suspend` waits until the thread gives up its processor. -/
def suspendOnce : List Act :=
  [.start (.suspend false), .call 0 false, .call 0 false, .own .dispatch, .call 0 false]

theorem suspendOnce_stopped : ∃ s, lts.run running suspendOnce = some s ∧
    .suspended s.period ∈ s.calls ∧ s.thread.place = .off := by
  have hrun : (lts.run running suspendOnce).map (fun s => (s.calls, s.period, s.forced)) =
      some ([.suspended 0], 0, false) := by decide
  obtain ⟨s, hs, heq⟩ := map_eq_some_iff.mp hrun
  simp only [Prod.mk.injEq] at heq
  obtain ⟨hcalls, hperiod, hforced⟩ := heq
  have hok : lts.okRun Careful running suspendOnce := by
    refine ⟨trivial, ⟨⟨by decide, by decide⟩, fun _ hu => ?_⟩, trivial, trivial, trivial, trivial⟩
    cases hu
  have hmem : Call.suspended s.period ∈ s.calls := by
    rw [hcalls, hperiod]
    exact mem_singleton_self _
  have hreach := Lts.Reach.run _ (.start running_init) hok hs
  rcases (suspension_effective hreach).2.2.2 _ hmem (.inl rfl) with hoff | hf
  · exact ⟨s, hs, hmem, hoff⟩
  · rw [hforced] at hf
    cases hf

/-- The second of two suspensions returns while the thread still runs. -/
theorem suspendTwice_running : ∃ s, lts.Reach anyStep s ∧ .suspended s.period ∈ s.calls ∧
    s.thread.place = .cpu ∧ s.forced = false := by
  have hrun : (lts.run running [.start (.suspend false), .call 0 false, .start (.suspend false),
      .call 1 false]).map (fun s => (s.calls, s.period, s.thread.place, s.forced)) =
      some ([.dowait (.suspend 0) (.awake true), .suspended 0], 0, .cpu, false) := by decide
  obtain ⟨s, hs, heq⟩ := map_eq_some_iff.mp hrun
  simp only [Prod.mk.injEq] at heq
  obtain ⟨hcalls, hperiod, hplace, hforced⟩ := heq
  refine ⟨s, .run _ (.start running_init) (Lts.okRun_any _ _ _) hs, ?_, hplace, hforced⟩
  rw [hcalls, hperiod]
  exact mem_cons_of_mem _ (mem_singleton_self _)

end Mach.Kern.Suspend
