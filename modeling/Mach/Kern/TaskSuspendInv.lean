import Mach.Kern.TaskSuspend
import Mach.Lib.Pool

/-!
# Task suspension is undone exactly

The suspend count of a task is the number of its holders, and one for the user's
suspension, as far as the calls have come: `task_suspend` and `task_resume` count first and
hold or release the task later (`Inv.count`). The suspend count of a thread is that of the
task and its own holds, as far as the loops over the threads have come (`Inv.thread`).

The counts stay positive as long as no `task_release` overtakes a `task_suspend` that has
counted but not held all threads yet, and no count is incremented at `INT_MAX` (`Settled`).
-/

namespace Mach.Kern.TaskSuspend

open Mach.Lib Mach.Lib.Pool List Option Thread Call TaskSuspend.Task

variable {s s' : Task} {i j : Nat} {c c' : Call} {t : Thread}

/-! ## What calls contribute -/

def Call.holder : Call → Int
  | .holding .hold _ | .held => 1
  | _ => 0

def Call.toHold : Call → Int
  | .suspendHold _ => 1
  | _ => 0

def Call.toRelease : Call → Int
  | .resumeRelease => 1
  | _ => 0

/-- A `task_suspend` that has counted and has threads to hold. -/
def Call.unsettled : Call → Int
  | .suspendHold _ | .holding (.suspend _) _ | .suspendDowait (some _) | .suspendSelf _ => 1
  | _ => 0

def at' (j : Nat) (self : Option Nat) : Int := if self = some j then 1 else 0

def Holder.self : Holder → Option Nat
  | .suspend self => self
  | .hold => none

/-- The holds that the thread `j` still has to get from a call. -/
def Call.owes (j : Nat) : Call → Int
  | .holding h rest => rest.count j + at' j h.self
  | .suspendDowait self => at' j self
  | .suspendSelf m => at' j (some m)
  | .releasing rest => - rest.count j
  | _ => 0

/-- The threads to go are different ones, and not the current one; the holders of the task
are not its threads. -/
def Call.Wf : Call → Prop
  | .holding h rest => rest.Nodup ∧ ∀ m, h.self = some m → m ∉ rest
  | .hold cur => cur = none
  | _ => True

def Call.caller : Call → Option Nat
  | .suspend self | .suspendHold self => self
  | _ => none

def Call.InRange (n : Nat) (c : Call) : Prop :=
  (∀ m, c.caller = some m → m < n) ∧ ∀ j, n ≤ j → c.owes j = 0

theorem count_cons (m j : Nat) (rest : List Nat) :
    ((m :: rest).count j : Int) = rest.count j + at' j (some m) := by
  rw [List.count_cons, at']
  by_cases he : m = j
  · rw [if_pos (beq_iff_eq.mpr he), if_pos (congrArg some he)]
    rfl
  · rw [if_neg (fun h => he (beq_iff_eq.mp h)), if_neg (fun h => he (Option.some.inj h))]
    rfl

theorem at'_le_one (j : Nat) (self : Option Nat) : at' j self ≤ 1 := by
  unfold at'
  split <;> decide

theorem Call.owes_le (h : c.Wf) (j : Nat) : c.owes j + c.toHold ≤ c.holder + c.unsettled := by
  cases c with
  | holding k rest =>
    obtain ⟨hnodup, hself⟩ := h
    have hcount := nodup_iff_count.mp hnodup j
    have hone : (rest.count j : Int) + at' j k.self ≤ 1 := by
      by_cases he : k.self = some j
      · have hnot := count_eq_zero.mpr (hself j he)
        have := at'_le_one j k.self
        omega
      · rw [at', if_neg he]
        omega
    cases k with
    | suspend | hold =>
      simp only [owes, toHold, holder, unsettled]
      omega
  | suspendDowait self =>
    cases self with
    | none => simp [owes, toHold, holder, unsettled, at']
    | some m =>
      have := at'_le_one j (some m)
      simp only [owes, toHold, holder, unsettled]
      omega
  | suspendSelf m =>
    have := at'_le_one j (some m)
    simp only [owes, toHold, holder, unsettled]
    omega
  | releasing rest =>
    simp only [owes, toHold, holder, unsettled]
    omega
  | _ => simp [owes, toHold, holder, unsettled]

theorem Call.toHold_le (c : Call) : c.toHold ≤ c.holder + c.unsettled := by
  cases c with
  | holding k rest => cases k <;> simp [toHold, holder, unsettled]
  | suspendDowait self => cases self <;> simp [toHold, holder, unsettled]
  | _ => simp [toHold, holder, unsettled]

/-! ## The invariant -/

def Task.stopped (s : Task) : Int := if 0 < s.userStopCount then 1 else 0

structure Inv (s : Task) : Prop where
  user : 0 ≤ s.userStopCount ∧ s.userStopCount ≤ intMax
  max : s.suspendCount ≤ intMax ∧ ∀ t ∈ s.threads, t.suspendCount ≤ intMax
  count : s.suspendCount + total Call.toHold s.calls =
    total Call.holder s.calls + s.stopped + total Call.toRelease s.calls
  thread : ∀ j t, s.threads[j]? = some t →
    t.suspendCount + total (Call.owes j) s.calls = t.own + s.suspendCount
  settled : total Call.unsettled s.calls ≤ s.stopped + total Call.toRelease s.calls
  wf : ∀ c ∈ s.calls, c.Wf
  range : ∀ c ∈ s.calls, c.InRange s.threads.length
  susp : ∀ t ∈ s.threads, t.susp = true ↔ 0 < t.suspendCount

theorem Inv.task_nonneg (hi : Inv s) : 0 ≤ s.suspendCount := by
  have hle : total toHold s.calls ≤ total (fun c => c.holder + c.unsettled) s.calls :=
    total_le fun c _ => c.toHold_le
  rw [total_add] at hle
  have := hi.count
  have := hi.settled
  omega

theorem Inv.thread_nonneg (hi : Inv s) (h : s.threads[j]? = some t) :
    (t.own : Int) ≤ t.suspendCount := by
  have hle : total (fun c => c.owes j + c.toHold) s.calls ≤
      total (fun c => c.holder + c.unsettled) s.calls :=
    total_le fun c hc => owes_le (hi.wf c hc) j
  rw [total_add, total_add] at hle
  have := hi.count
  have := hi.settled
  have := hi.thread j t h
  omega

theorem Inv.thread_pos (hi : Inv s) {rest : List Nat} (h : s.calls[i]? = some (.releasing (j :: rest)))
    (ht : s.threads[j]? = some t) : 0 < t.suspendCount := by
  have hle : total (fun c => c.owes j + c.toHold) (s.calls.set i (.releasing rest)) ≤
      total (fun c => c.holder + c.unsettled) (s.calls.set i (.releasing rest)) :=
    total_le fun c hc =>
      owes_le (forall_mem_set hi.wf (show (Call.releasing rest).Wf from trivial) i c hc) j
  rw [total_add, total_add] at hle
  have htotal := fun f => total_set h f (.releasing rest)
  have := htotal (owes j)
  have := htotal toHold
  have := htotal holder
  have := htotal unsettled
  have := hi.count
  have := hi.settled
  have := hi.thread j t ht
  have := count_cons j j rest
  simp only [owes, toHold, holder, unsettled, at', if_true] at *
  omega

/-! ## Threads -/

theorem Thread.hold_count (hnonneg : 0 ≤ t.suspendCount) (hroom : t.suspendCount < intMax) :
    t.hold.suspendCount = t.suspendCount + 1 := int_eq (by omega) (by omega)

theorem Thread.release_eq (hpos : 0 < t.suspendCount) (hmax : t.suspendCount ≤ intMax) :
    t.release.suspendCount = t.suspendCount - 1 := int_eq (by omega) (by omega)

theorem Thread.susp_release (h : t.susp = true ↔ 0 < t.suspendCount) (hpos : 0 < t.suspendCount)
    (hmax : t.suspendCount ≤ intMax) : t.release.susp = true ↔ 0 < t.release.suspendCount := by
  have hcount := release_eq hpos hmax
  have hsusp : t.release.susp = (t.susp && decide (t.release.suspendCount ≠ 0)) := rfl
  rw [hsusp, Bool.and_eq_true, h, decide_eq_true_eq, hcount]
  omega

variable {f : Thread → Thread}

theorem Inv.onThread (hi : Inv s) {d : Int} {calls : List Call} (hs : s.onThread j f = some s')
    (hf : ∀ t, s.threads[j]? = some t → (f t).suspendCount = t.suspendCount + (f t).own - t.own + d)
    (hmax : ∀ t, s.threads[j]? = some t → (f t).suspendCount ≤ intMax)
    (hsusp : ∀ t, s.threads[j]? = some t → ((f t).susp = true ↔ 0 < (f t).suspendCount))
    (howes : ∀ k, total (Call.owes k) calls + at' k (some j) * d = total (Call.owes k) s.calls)
    (hhold : total Call.toHold calls = total Call.toHold s.calls)
    (hholder : total Call.holder calls = total Call.holder s.calls)
    (hrelease : total Call.toRelease calls = total Call.toRelease s.calls)
    (hunsettled : total Call.unsettled calls ≤ total Call.unsettled s.calls)
    (hwf : ∀ c ∈ calls, c.Wf) (hrange : ∀ c ∈ calls, c.InRange s.threads.length) :
    Inv { s' with calls := calls } := by
  obtain ⟨t, ht, rfl⟩ := map_eq_some_iff.mp hs
  obtain ⟨hj, hget⟩ := List.getElem?_eq_some_iff.mp ht
  refine ⟨hi.user, ⟨hi.max.1, forall_mem_set hi.max.2 (hmax t ht) j⟩, ?_, ?_, ?_, hwf, ?_, ?_⟩
  · have := hi.count
    simp only [stopped] at this ⊢
    omega
  · intro k u hu
    have hk := howes k
    simp only [List.getElem?_set] at hu
    by_cases he : j = k
    · subst he
      rw [if_pos rfl, if_pos hj] at hu
      cases hu
      have := hi.thread j t ht
      have := hf t ht
      rw [at', if_pos rfl] at hk
      simp only
      omega
    · rw [if_neg he] at hu
      have := hi.thread k u hu
      rw [at', if_neg (by simpa using he)] at hk
      simp only
      omega
  · have := hi.settled
    simp only [stopped] at this ⊢
    omega
  · simp only [length_set]
    exact hrange
  · refine forall_mem_set hi.susp (hsusp t ht) j

theorem Inv.move (hi : Inv s) (h : s.calls[i]? = some c) {user n : Int} {locked : Bool}
    (huser : 0 ≤ user ∧ user ≤ intMax) (hn : n ≤ intMax)
    (hcount : n - s.suspendCount + c'.toHold - c.toHold = c'.holder - c.holder +
      (if 0 < user then 1 else 0) - s.stopped + c'.toRelease - c.toRelease)
    (howes : ∀ j < s.threads.length, c'.owes j - c.owes j = n - s.suspendCount)
    (hsettled : total Call.unsettled s.calls + c'.unsettled - c.unsettled ≤
      (if 0 < user then 1 else 0) + total Call.toRelease s.calls + c'.toRelease - c.toRelease)
    (hwf : c'.Wf) (hrange : c'.InRange s.threads.length) :
    Inv ({ s with userStopCount := user, suspendCount := n, locked := locked }.goto i c') := by
  have htotal := fun f => total_set h f c'
  refine ⟨huser, ⟨hn, hi.max.2⟩, ?_, ?_, ?_, forall_mem_set hi.wf hwf i,
    forall_mem_set hi.range hrange i, hi.susp⟩
  · have := hi.count
    have := htotal toHold
    have := htotal holder
    have := htotal toRelease
    simp only [Task.goto, stopped] at *
    omega
  · intro j t ht
    have hj : j < s.threads.length := (List.getElem?_eq_some_iff.mp ht).1
    have := hi.thread j t ht
    have := howes j hj
    have := htotal (owes j)
    simp only [Task.goto]
    omega
  · have := htotal unsettled
    have := htotal toRelease
    simp only [Task.goto, stopped] at *
    omega

theorem count_range (h : j < s.threads.length) : (range s.threads.length).count j = 1 := by
  rw [nodup_range.count, if_pos (mem_range.mpr h)]

theorem others_nodup (s : Task) (cur : Option Nat) : (s.others cur).Nodup :=
  List.Pairwise.filter _ nodup_range

theorem count_others (cur : Option Nat) (h : j < s.threads.length) :
    ((s.others cur).count j : Int) + at' j cur = 1 := by
  have hmem : j ∈ s.others cur ↔ cur ≠ some j := by
    unfold others
    rw [mem_filter, decide_eq_true_eq]
    exact and_iff_right (mem_range.mpr h)
  rw [(others_nodup s cur).count, at']
  by_cases he : cur = some j
  · rw [if_neg fun hm => hmem.mp hm he, if_pos he]
    rfl
  · rw [if_pos (hmem.mpr he), if_neg he]
    rfl

theorem others_inRange (cur : Option Nat) (h : s.threads.length ≤ j) : (s.others cur).count j = 0 := by
  apply count_eq_zero.mpr
  intro hmem
  have := mem_range.mp (mem_filter.mp hmem).1
  omega

/-! ## The sections of the calls -/

theorem inRange_of_owes {n : Nat} (hcaller : c.caller = none)
    (howes : ∀ j, n ≤ j → c.owes j = 0) : c.InRange n := by
  refine ⟨fun m hm => ?_, howes⟩
  rw [hcaller] at hm
  cases hm

theorem Call.toRelease_nonneg (c : Call) : 0 ≤ c.toRelease := by
  unfold toRelease
  split
  · exact Int.zero_le_ofNat 1
  · exact Int.le_refl 0

section

variable (hi : Inv s) (h : s.calls[i]? = some c)
include hi h

theorem startHold_inv {k : Holder} (howes : ∀ j, c.owes j = 0) (hrel : c.toRelease = 0)
    (hpart : c.holder = 0 ∧ (Call.holding k []).holder + c.toHold = 1)
    (hun : (Call.holding k []).unsettled = c.unsettled)
    (hself : ∀ m, k.self = some m → m < s.threads.length) (hroom : s.suspendCount < intMax) :
    Inv (s.startHold i k k.self) := by
  have hnonneg := hi.task_nonneg
  rw [Task.startHold, int_eq (by omega) (by omega)]
  have hholder : ∀ rest, (Call.holding k rest).holder = (Call.holding k []).holder := by
    intro rest
    cases k <;> rfl
  have hunset : ∀ rest, (Call.holding k rest).unsettled = (Call.holding k []).unsettled := by
    intro rest
    cases k <;> rfl
  have htoRel : ∀ rest, (Call.holding k rest).toRelease = 0 := fun _ => rfl
  have htoHold : ∀ rest, (Call.holding k rest).toHold = 0 := fun _ => rfl
  refine hi.move h hi.user (by omega) ?_ ?_ ?_ ?_ ?_
  · rw [hholder, htoRel, htoHold, stopped]
    omega
  · intro j hj
    rw [howes j]
    simp only [owes]
    have := count_others k.self hj
    omega
  · rw [hunset, htoRel]
    have := hi.settled
    rw [stopped] at this
    omega
  · refine ⟨others_nodup s k.self, fun m hm hmem => ?_⟩
    have := (mem_filter.mp hmem).2
    simp only [decide_eq_true_eq] at this
    exact this hm
  · refine inRange_of_owes rfl fun j hj => ?_
    simp only [owes]
    rw [others_inRange k.self hj, at', if_neg]
    · rfl
    intro he
    have := hself j he
    omega

theorem startRelease_inv (howes : ∀ j, c.owes j = 0) (hpart : c.holder + c.toRelease = 1)
    (hhold : c.toHold = 0) (hset : c.unsettled = 0)
    (hsettled : c.toRelease = 0 ∨ total Call.unsettled s.calls = 0) : Inv (s.startRelease i) := by
  have hcalls := total_set h toRelease (.releasing (range s.threads.length))
  have hrel : (Call.releasing (range s.threads.length)).toRelease = 0 := rfl
  have hholder : (Call.releasing (range s.threads.length)).holder = 0 := rfl
  have htoHold : (Call.releasing (range s.threads.length)).toHold = 0 := rfl
  have hunset : (Call.releasing (range s.threads.length)).unsettled = 0 := rfl
  have hmax := hi.max.1
  have hexact : Inv ({ s with suspendCount := s.suspendCount - 1, locked := true }.goto i
      (.releasing (range s.threads.length))) := by
    refine hi.move h hi.user (by omega) ?_ ?_ ?_ trivial ?_
    · rw [stopped]
      omega
    · intro j hj
      rw [howes j]
      simp only [owes]
      have := count_range hj
      omega
    · have hle := total_nonneg fun c (_ : c ∈ s.calls.set i (.releasing (range s.threads.length))) =>
        c.toRelease_nonneg
      have hbound := hi.settled
      rw [stopped] at hbound
      rcases hsettled with hz | hz
      · omega
      · split <;> omega
    · refine inRange_of_owes rfl fun j hj => ?_
      simp only [owes]
      rw [count_eq_zero.mpr]
      · rfl
      intro hmem
      have := mem_range.mp hmem
      omega
  -- the count of a state that keeps the invariant is not negative
  have hnonneg : 0 ≤ s.suspendCount - 1 := hexact.task_nonneg
  rw [Task.startRelease, int_eq hnonneg (by omega)]
  exact hexact

theorem Inv.goto {locked : Bool} (hun : c'.unsettled ≤ c.unsettled)
    (howes : ∀ j, c'.owes j = c.owes j) (hhold : c'.toHold = c.toHold := by rfl)
    (hholder : c'.holder = c.holder := by rfl) (hrel : c'.toRelease = c.toRelease := by rfl)
    (hwf : c'.Wf := by trivial) (hcaller : c'.caller = none := by rfl) :
    Inv ({ s with locked := locked }.goto i c') := by
  refine hi.move h hi.user hi.max.1 ?_ (fun j _ => ?_) ?_ hwf (inRange_of_owes hcaller fun j hj => ?_)
  · rw [stopped]
    omega
  · rw [howes j]
    omega
  · have := hi.settled
    rw [stopped] at this
    omega
  · rw [howes j]
    exact (hi.range c (mem_of_getElem? h)).2 j hj

theorem Inv.onThreadCall {d : Int} (hs : (s.onThread j f).map (fun s => s.goto i c') = some s')
    (hf : ∀ t, s.threads[j]? = some t → (f t).suspendCount = t.suspendCount + d ∧ (f t).own = t.own)
    (hmax : ∀ t, s.threads[j]? = some t → (f t).suspendCount ≤ intMax)
    (hsusp : ∀ t, s.threads[j]? = some t → ((f t).susp = true ↔ 0 < (f t).suspendCount))
    (howes : ∀ k, c'.owes k + at' k (some j) * d = c.owes k) (hhold : c'.toHold = c.toHold)
    (hholder : c'.holder = c.holder) (hrel : c'.toRelease = c.toRelease)
    (hun : c'.unsettled ≤ c.unsettled) (hwf : c'.Wf) (hcaller : c'.caller = none) : Inv s' := by
  obtain ⟨s1, hs1, rfl⟩ := map_eq_some_iff.mp hs
  have htotal := fun f => total_set h f c'
  have hj : j < s.threads.length := by
    obtain ⟨t, ht, -⟩ := map_eq_some_iff.mp hs1
    exact (List.getElem?_eq_some_iff.mp ht).1
  have hcalls : s1.calls = s.calls := by
    obtain ⟨t, -, rfl⟩ := map_eq_some_iff.mp hs1
    rfl
  rw [Task.goto, hcalls]
  refine hi.onThread hs1 (d := d) (fun t ht => ?_) hmax hsusp (fun k => ?_) ?_ ?_ ?_ ?_
    (forall_mem_set hi.wf hwf i) (forall_mem_set hi.range ?_ i)
  · have := hf t ht
    omega
  · have := htotal (owes k)
    have := howes k
    omega
  · have := htotal toHold
    omega
  · have := htotal holder
    omega
  · have := htotal toRelease
    omega
  · have := htotal unsettled
    omega
  · refine inRange_of_owes hcaller fun k hk => ?_
    have hz := (hi.range c (mem_of_getElem? h)).2 k hk
    have ho := howes k
    rw [at', if_neg (by rw [Option.some.injEq]; omega)] at ho
    omega

end

def Task.Room (s : Task) (j : Nat) : Prop := ∀ t, s.threads[j]? = some t → t.suspendCount < intMax

theorem Inv.hold_count (hi : Inv s) (hroom : s.Room j) : ∀ t, s.threads[j]? = some t →
    t.hold.suspendCount = t.suspendCount + 1 := by
  intro t ht
  have := hi.thread_nonneg ht
  exact Thread.hold_count (by omega) (hroom t ht)

theorem Inv.susp_of_hold (hi : Inv s) (hroom : s.Room j) : ∀ t, s.threads[j]? = some t →
    (t.hold.susp = true ↔ 0 < t.hold.suspendCount) := by
  intro t ht
  have := hi.thread_nonneg ht
  refine iff_of_true rfl ?_
  rw [hi.hold_count hroom t ht]
  omega

/-- What the loops may not overtake, who may hold the task, and what the counts leave room
for. -/
def Settled (s : Task) : Act → Prop
  | .call i =>
    match s.calls[i]? with
    | some (.suspend _) => s.userStopCount < intMax
    | some (.suspendHold _) | some (.hold _) => s.suspendCount < intMax
    | some (.suspendSelf j) | some (.holding _ (j :: _)) => s.Room j
    | some .resumeRelease => ∀ c ∈ s.calls, c.unsettled = 0
    | _ => True
  | .start (.hold cur) => cur = none
  | .create _ => s.suspendCount + 1 < intMax
  | .threadHold j => s.Room j
  | _ => True

theorem suspend_inv {self : Option Nat} (hi : Inv s) (h : s.calls[i]? = some (.suspend self))
    (hok : Settled s (.call i)) (hs : callStep s i (.suspend self) = some s') : Inv s' := by
  have hmem := mem_of_getElem? h
  obtain ⟨huser, hmax⟩ := hi.user
  simp only [Settled, h] at hok
  obtain ⟨-, ⟨⟩⟩ := ite_none_left_eq_some.mp hs
  have hset := hi.settled
  rw [stopped] at hset
  rw [int_eq (x := s.userStopCount + 1) (by omega) (by omega)]
  split
  next hzero =>
    refine hi.move h (by omega) hi.max.1 ?_ (fun j _ => ?_) ?_ trivial ⟨(hi.range _ hmem).1, fun j _ => rfl⟩
    · simp [toHold, holder, toRelease, stopped, hzero]
    · simp [owes]
    · simp [unsettled, toRelease] at hset ⊢
      omega
  next hmore =>
    have hpos : 0 < s.userStopCount := by omega
    have hpos' : 0 < s.userStopCount + 1 := by omega
    refine hi.move h (by omega) hi.max.1 ?_ (fun j _ => ?_) ?_ trivial (inRange_of_owes rfl fun j _ => rfl)
    · simp [toHold, holder, toRelease, stopped, hpos, hpos']
    · simp [owes]
    · simp [unsettled, toRelease, hpos, hpos'] at hset ⊢
      exact hset

theorem resume_inv (hi : Inv s) (h : s.calls[i]? = some .resume)
    (hs : callStep s i .resume = some s') : Inv s' := by
  obtain ⟨huser, hmax⟩ := hi.user
  obtain ⟨-, hs⟩ := ite_none_left_eq_some.mp hs
  split at hs
  next hpos =>
    cases hs
    have hset := hi.settled
    rw [stopped] at hset
    simp only [int_eq (x := s.userStopCount - 1) (by omega) (by omega)]
    split
    next hone =>
      refine hi.move h (by omega) hi.max.1 ?_ (fun j _ => ?_) ?_ trivial (inRange_of_owes rfl fun j _ => rfl)
      · simp [toHold, holder, toRelease, stopped, hone, hpos]
      · simp [owes]
      · simp [unsettled, toRelease, hone]
        omega
    next hmore =>
      have hpos' : 0 < s.userStopCount - 1 := by omega
      refine hi.move h (by omega) hi.max.1 ?_ (fun j _ => ?_) ?_ trivial (inRange_of_owes rfl fun j _ => rfl)
      · rw [if_pos hpos']
        simp [toHold, holder, toRelease, stopped, hpos]
      · simp [owes]
      · rw [if_pos hpos']
        simp [unsettled, toRelease]
        omega
  next =>
    cases hs
    exact hi.goto h (Int.le_refl 0) (fun _ => rfl)

theorem callStep_inv (hi : Inv s) (h : s.calls[i]? = some c) (hok : Settled s (.call i))
    (hs : callStep s i c = some s') : Inv s' := by
  have hmem := mem_of_getElem? h
  have hlimit := hok
  simp only [Settled, h] at hok
  cases c with
  | suspend self => exact suspend_inv hi h hlimit hs
  | suspendHold self =>
    obtain ⟨-, ⟨⟩⟩ := ite_none_left_eq_some.mp hs
    exact startHold_inv hi h (fun _ => rfl) rfl ⟨rfl, rfl⟩ rfl (hi.range _ hmem).1 hok
  | suspendDowait self =>
    cases self with
    | none | some m =>
      cases hs
      exact hi.goto h (Int.le_refl _) (fun _ => rfl)
  | suspendSelf m =>
    refine hi.onThreadCall h hs (fun t ht => ⟨hi.hold_count hok t ht, rfl⟩) (fun _ _ => int_le _)
      (hi.susp_of_hold hok) (fun k => ?_) rfl rfl rfl (Int.zero_le_ofNat 1) trivial rfl
    simp [owes]
  | hold cur =>
    have hcur : cur = none := hi.wf _ hmem
    subst hcur
    obtain ⟨-, ⟨⟩⟩ := ite_none_left_eq_some.mp hs
    exact startHold_inv hi h (fun _ => rfl) rfl ⟨rfl, rfl⟩ rfl nofun hok
  | holding k rest =>
    cases rest with
    | nil =>
      cases hs
      cases k with
      | suspend self =>
        refine hi.goto h ?_ (fun j => ?_)
        · cases self with
          | none => exact Int.zero_le_ofNat 1
          | some m => exact Int.le_refl 1
        · simp [Holder.next, owes, Holder.self]
      | hold =>
        refine hi.goto h (Int.le_refl 0) (fun j => ?_)
        simp [Holder.next, owes, Holder.self, at']
    | cons m rest =>
      obtain ⟨hnodup, hself⟩ := hi.wf _ hmem
      refine hi.onThreadCall h hs (fun t ht => ⟨hi.hold_count hok t ht, rfl⟩) (fun _ _ => int_le _)
        (hi.susp_of_hold hok) (fun k' => ?_) rfl ?_ rfl ?_ ⟨(nodup_cons.mp hnodup).2, fun x hx hmem => hself x hx (mem_cons_of_mem m hmem)⟩ rfl
      · simp only [owes]
        have := count_cons m k' rest
        omega
      · cases k <;> rfl
      · cases k <;> exact Int.le_refl _
  | held =>
    obtain ⟨-, ⟨⟩⟩ := ite_none_left_eq_some.mp hs
    exact startRelease_inv hi h (fun _ => rfl) rfl rfl rfl (.inl rfl)
  | resume => exact resume_inv hi h hs
  | resumeRelease =>
    obtain ⟨-, ⟨⟩⟩ := ite_none_left_eq_some.mp hs
    exact startRelease_inv hi h (fun _ => rfl) rfl rfl rfl (.inr (total_eq_zero hok))
  | releasing rest =>
    cases rest with
    | nil =>
      cases hs
      refine hi.goto h (Int.le_refl 0) (fun j => ?_)
      simp [owes]
    | cons m rest =>
      refine hi.onThreadCall (d := -1) h hs (fun t ht => ⟨?_, rfl⟩) (fun _ _ => int_le _) (fun t ht => ?_)
        (fun k => ?_) rfl rfl rfl (Int.le_refl 0) trivial rfl
      · exact release_eq (hi.thread_pos h ht) (hi.max.2 t (mem_of_getElem? ht))
      · exact susp_release (hi.susp t (mem_of_getElem? ht)) (hi.thread_pos h ht)
          (hi.max.2 t (mem_of_getElem? ht))
      simp only [owes]
      have := count_cons m k rest
      omega
  | done => cases hs

theorem start_inv (hi : Inv s) (hok : Settled s (.start c)) (hc : s.admits c = true) :
    Inv { s with calls := s.calls ++ [c] } := by
  have hidle : c.toHold = 0 ∧ c.holder = 0 ∧ c.toRelease = 0 ∧ c.unsettled = 0 ∧
      (∀ j, c.owes j = 0) ∧ c.Wf ∧ ∀ m, c.caller = some m → m < s.threads.length := by
    cases c with
    | suspend self =>
      refine ⟨rfl, rfl, rfl, rfl, fun _ => rfl, trivial, fun m hm => ?_⟩
      simp only [caller] at hm
      simp only [admits, hm, all_some, decide_eq_true_eq] at hc
      exact hc
    | hold cur => exact ⟨rfl, rfl, rfl, rfl, fun _ => rfl, hok, nofun⟩
    | resume => exact ⟨rfl, rfl, rfl, rfl, fun _ => rfl, trivial, nofun⟩
    | _ => cases hc
  obtain ⟨hhold, hholder, hrel, hun, howes, hwf, hcaller⟩ := hidle
  have htotal := fun f => total_append f s.calls c
  refine ⟨hi.user, hi.max, ?_, fun j t ht => ?_, ?_, forall_mem_append hi.wf hwf,
    forall_mem_append hi.range ⟨hcaller, fun j _ => howes j⟩, hi.susp⟩
  · have := hi.count
    simp only [htotal, hhold, hholder, hrel, Int.add_zero]
    exact this
  · simp only [htotal, howes, Int.add_zero]
    exact hi.thread j t ht
  · simp only [htotal, hun, hrel, Int.add_zero]
    exact hi.settled

theorem onThread_calls (hs : s.onThread j f = some s') : s' = { s' with calls := s.calls } := by
  obtain ⟨t, -, rfl⟩ := map_eq_some_iff.mp hs
  rfl

theorem create_inv (hi : Inv s) (emptySet : Bool) (hroom : s.suspendCount + 1 < intMax) :
    Inv (s.create emptySet) := by
  have hnonneg := hi.task_nonneg
  obtain ⟨u, hu, hnew⟩ : ∃ u : Thread, s.create emptySet = { s with threads := s.threads ++ [u] } ∧
      u.suspendCount = s.suspendCount + u.own ∧ 0 < u.own ∧ u.susp = true ∧ u.suspendCount ≤ intMax := by
    refine ⟨_, rfl, ?_⟩
    rw [int_eq (x := s.suspendCount + 1) (by omega) (by omega)]
    cases emptySet with
    | false => exact ⟨rfl, Nat.one_pos, rfl, by simp only [Bool.false_eq_true, if_false]; omega⟩
    | true =>
      rw [int_eq (x := s.suspendCount + 1 + 1) (by omega) (by omega)]
      exact ⟨by simp only [if_true]; omega, Nat.two_pos, rfl, by simp only [if_true]; omega⟩
  obtain ⟨hcount, hown, hsusp, hmax⟩ := hnew
  rw [hu]
  refine ⟨hi.user, ⟨hi.max.1, forall_mem_append hi.max.2 hmax⟩, hi.count, fun j t ht => ?_, hi.settled,
    hi.wf, fun c hc => ?_, forall_mem_append hi.susp (iff_of_true hsusp (by omega))⟩
  · simp only at ht ⊢
    rcases Nat.lt_trichotomy j s.threads.length with hlt | rfl | hgt
    · rw [getElem?_append_left hlt] at ht
      exact hi.thread j t ht
    · rw [getElem?_append_right (Nat.le_refl _), Nat.sub_self] at ht
      cases ht
      rw [total_eq_zero fun c hc => (hi.range c hc).2 _ (Nat.le_refl _)]
      omega
    · rw [getElem?_eq_none (by simp; omega)] at ht
      cases ht
  · have hr := hi.range c hc
    simp only [length_append, length_singleton]
    exact ⟨fun m hm => Nat.lt_succ_of_lt (hr.1 m hm), fun j hj => hr.2 j (by omega)⟩

theorem step_inv (hi : Inv s) {a : Act} (hok : Settled s a) (hs : step s a = some s') : Inv s' := by
  cases a with
  | start c =>
    obtain ⟨hc, ⟨⟩⟩ := ite_none_right_eq_some.mp hs
    exact start_inv hi hok hc
  | call i =>
    obtain ⟨c, hc, hs⟩ := bind_eq_some_iff.mp hs
    exact callStep_inv hi hc hok hs
  | create emptySet =>
    obtain ⟨-, ⟨⟩⟩ := ite_none_left_eq_some.mp hs
    exact create_inv hi emptySet hok
  | threadHold j =>
    rw [onThread_calls hs]
    refine hi.onThread hs (d := 0) (fun t ht => ?_) (fun _ _ => int_le _) (hi.susp_of_hold hok)
      (fun k => ?_) rfl rfl rfl (Int.le_refl _) hi.wf hi.range
    · have := hi.hold_count hok t ht
      simp only
      omega
    · omega
  | threadRelease j =>
    obtain ⟨hown, hs⟩ := ite_none_right_eq_some.mp hs
    rw [onThread_calls hs]
    have hpos : ∀ t, s.threads[j]? = some t → 0 < t.own ∧ 0 < t.suspendCount := by
      intro t ht
      rw [ht, any_some, decide_eq_true_eq] at hown
      have := hi.thread_nonneg ht
      omega
    refine hi.onThread hs (d := 0) (fun t ht => ?_) (fun _ _ => int_le _) (fun t ht => ?_) (fun k => ?_)
      rfl rfl rfl (Int.le_refl _) hi.wf hi.range
    · have := release_eq (hpos t ht).2 (hi.max.2 t (mem_of_getElem? ht))
      have := hpos t ht
      simp only
      omega
    · exact susp_release (hi.susp t (mem_of_getElem? ht)) (hpos t ht).2 (hi.max.2 t (mem_of_getElem? ht))
    · omega

/-! ## Runs -/

theorem inv_init (h : lts.init s) : Inv s := by
  obtain ⟨huser, hcount, -, hcalls, hthreads⟩ := h
  refine ⟨?_, ⟨?_, fun t ht => (hthreads t ht).2.1⟩, ?_, fun j t ht => ?_, ?_, ?_, ?_, fun t ht => ?_⟩
  · rw [huser]
    decide
  · rw [hcount]
    decide
  · rw [hcount, hcalls, stopped, huser]
    rfl
  · rw [hcount, hcalls, (hthreads t (mem_of_getElem? ht)).1]
    rfl
  · rw [hcalls, stopped, huser]
    exact Int.le_refl 0
  · rw [hcalls]
    exact nofun
  · rw [hcalls]
    exact nofun
  · obtain ⟨hc, -, hs⟩ := hthreads t ht
    rw [hs, decide_eq_true_eq]
    omega

theorem inv_of_reach (h : lts.Reach Settled s) : Inv s := by
  refine Lts.Reach.inv ?_ ?_ h
  · intro s h0
    exact inv_init h0
  · intro s a s' hi hok hs
    exact step_inv hi hok hs

/-- No call is in progress; some may still hold the task. -/
def Task.Idle (s : Task) : Prop := ∀ c ∈ s.calls, c = .held ∨ c = .done

/-- How many `task_hold` are not released. -/
def Task.holders (s : Task) : Nat := s.calls.count .held

theorem total_holder (h : s.Idle) : total Call.holder s.calls = s.holders := by
  unfold Task.Idle at h
  unfold holders
  generalize s.calls = l at h
  induction l with
  | nil => rfl
  | cons c l ih =>
    have hl := ih (forall_mem_cons.mp h).2
    rw [total, hl]
    rcases h c mem_cons_self with rfl | rfl
    · simp [holder]
      omega
    · simp [holder]

/-- **Task suspension is undone exactly**: no count is ever negative, and when no call is in
progress the counts are those of the holds. -/
theorem suspension_exact (h : lts.Reach Settled s) :
    0 ≤ s.suspendCount ∧ (∀ t ∈ s.threads, 0 ≤ t.suspendCount) ∧ (s.Idle →
        s.suspendCount = s.holders + (if 0 < s.userStopCount then 1 else 0) ∧
        (∀ t ∈ s.threads, t.suspendCount = s.suspendCount + t.own) ∧
        ∀ t ∈ s.threads, t.own = 0 → (t.susp = true ↔ 0 < s.suspendCount)) := by
  have hi := inv_of_reach h
  refine ⟨hi.task_nonneg, fun t ht => ?_, fun hidle => ?_⟩
  · obtain ⟨j, hj⟩ := getElem?_of_mem ht
    have := hi.thread_nonneg hj
    omega
  · have hzero : ∀ f : Call → Int, f .held = 0 → f .done = 0 → total f s.calls = 0 := by
      intro f hheld hdone
      apply total_eq_zero
      intro c hc
      rcases hidle c hc with rfl | rfl
      · exact hheld
      · exact hdone
    have hcount : s.suspendCount = s.holders + (if 0 < s.userStopCount then 1 else 0) := by
      have := hi.count
      rw [hzero toHold rfl rfl, hzero toRelease rfl rfl, total_holder hidle, stopped] at this
      omega
    have hthread : ∀ t ∈ s.threads, t.suspendCount = s.suspendCount + t.own := by
      intro t ht
      obtain ⟨j, hj⟩ := getElem?_of_mem ht
      have := hi.thread j t hj
      rw [hzero (owes j) rfl rfl] at this
      omega
    refine ⟨hcount, hthread, fun t ht hown => ?_⟩
    rw [hi.susp t ht, hthread t ht]
    omega

def oneThread : Task := ⟨0, 0, [⟨0, false, 0⟩], false, []⟩

theorem oneThread_init : lts.init oneThread := by
  refine ⟨rfl, rfl, rfl, rfl, fun t ht => ?_⟩
  rw [mem_singleton.mp ht]
  exact ⟨rfl, by decide, rfl⟩

def suspendSelf : List Act :=
  [.create false, .start (.suspend (some 0)), .call 0, .call 0, .threadHold 1, .call 0, .call 0,
    .create true, .call 0, .call 0, .start (.hold none), .call 1, .call 1, .call 1, .call 1, .call 1]

theorem suspendSelf_exact : ∃ s, lts.run oneThread suspendSelf = some s ∧ s.suspendCount = 2 ∧
    s.threads.map Thread.own = [0, 2, 2] ∧ ∀ t ∈ s.threads, t.suspendCount = s.suspendCount + t.own := by
  have hrun : (lts.run oneThread suspendSelf).map (fun s => (s.calls, s.suspendCount, s.threads.map Thread.own)) =
      some ([.done, .held], 2, [0, 2, 2]) := by decide
  obtain ⟨s, hs, heq⟩ := map_eq_some_iff.mp hrun
  simp only [Prod.mk.injEq] at heq
  obtain ⟨hcalls, hcount, hown⟩ := heq
  have hroom : ∀ {s : Task} {j : Nat}, (∀ t ∈ s.threads, t.suspendCount < intMax) → s.Room j :=
    fun h t ht => h t (mem_of_getElem? ht)
  have hok : lts.okRun Settled oneThread suspendSelf := by
    have h1 : (1 : Int) < intMax := by decide
    have h2 : (2 : Int) < intMax := by decide
    have h0 : (0 : Int) < intMax := by decide
    exact ⟨h1, trivial, h0, h0, hroom (by decide), hroom (by decide), trivial, h2,
      trivial, hroom (by decide), rfl, h1, hroom (by decide), hroom (by decide), hroom (by decide),
      trivial, trivial⟩
  have hreach := Lts.Reach.run _ (.start oneThread_init) hok hs
  have hidle : s.Idle := by
    intro c hc
    rw [hcalls] at hc
    rcases mem_cons.mp hc with rfl | hc
    · exact .inr rfl
    · exact .inl (mem_singleton.mp hc)
  exact ⟨s, hs, hcount, hown, ((suspension_exact hreach).2.2 hidle).2.1⟩

/-- `task_resume` releases the task before `task_suspend` has held it. -/
theorem resumeOvertakes_negative : ∃ s, lts.Reach anyStep s ∧ s.suspendCount < 0 ∧
    ∃ t ∈ s.threads, t.suspendCount < 0 := by
  have hrun : (lts.run oneThread [.start (.suspend none), .call 0, .start .resume, .call 1, .call 1,
      .call 1]).map (fun s => (s.suspendCount, s.threads)) = some (-1, [⟨-1, false, 0⟩]) := by decide
  obtain ⟨s, hs, heq⟩ := map_eq_some_iff.mp hrun
  rw [Prod.mk.injEq] at heq
  obtain ⟨hcount, hthreads⟩ := heq
  refine ⟨s, .run _ (.start oneThread_init) (Lts.okRun_any _ _ _) hs, by omega,
    ⟨-1, false, 0⟩, ?_, by decide⟩
  rw [hthreads]
  exact mem_singleton_self _

end Mach.Kern.TaskSuspend
