import Mathlib.Data.List.Nodup
import Mathlib.Data.List.Perm.Basic
import Mach.Kern.GsyncWake

/-!
# Wake-ups are neither lost nor wasted

Under the lock of the bucket there is one thread (`LockInv`). `OkAt` is an assertion for each
place in the code; a step of one thread brings it to a place whose assertion holds and leaves
the assertions of the others as they are (`Quiet`). A wake-up that ends the wait of a waiter
that still waits adds one thread to those that return `KERN_SUCCESS`, and nothing else does.
-/

namespace Mach.Kern.GsyncWake

open Mach.Lib Function List

variable {T V : Type}

/-! ## The lock -/

def Pc.inside : Pc T V → Bool
  | .out => false
  | .waitEnter _ _ => false
  | .waitBlocked _ => false
  | .leaveEnter => false
  | .wakeEnter _ _ => false
  | _ => true

def Pc.enters : Pc T V → Bool
  | .waitLocked _ _ => true
  | .leaveLocked => true
  | .wakeLocked _ _ => true
  | _ => false

theorem Pc.inside_of_enters {p : Pc T V} (h : p.enters = true) : p.inside = true := by
  cases p <;> first | rfl | cases h

theorem Pc.waits_of_enters {p : Pc T V} (h : p.enters = true) : p.waits = false := by
  cases p <;> first | rfl | cases h

def Holds (pc : T → Pc T V) (wait : T → Wait) (t : T) : Prop :=
  (pc t).inside = true ∧ wait t ≠ .mutex

structure LockInv (pc : T → Pc T V) (wait : T → Wait) (lock : Kmutex.Word) (sleepers : List T) :
    Prop where
  free : lock = .avail ↔ ∀ t, ¬ Holds pc wait t
  one : ∀ t u, Holds pc wait t → Holds pc wait u → t = u
  asleep : ∀ t, t ∈ sleepers ↔ wait t = .mutex
  nodup : sleepers.Nodup
  enters : ∀ t, wait t = .mutex → (pc t).enters = true
  contended : sleepers ≠ [] → lock = .contended

section

variable {pc pc' : T → Pc T V} {wait wait' : T → Wait} {lock lock' : Kmutex.Word}
  {sleepers : List T} {t u : T}

theorem LockInv.congr (h : LockInv pc wait lock sleepers)
    (hin : ∀ u, (pc' u).inside = (pc u).inside) (hm : ∀ u, wait' u = .mutex ↔ wait u = .mutex)
    (hent : ∀ u, wait u = .mutex → pc' u = pc u) : LockInv pc' wait' lock sleepers := by
  have hholds : ∀ u, Holds pc' wait' u ↔ Holds pc wait u := by
    intro u
    rw [Holds, Holds, hin u, Ne, hm u]
  refine ⟨?_, ?_, ?_, h.nodup, ?_, h.contended⟩
  · rw [h.free]
    exact forall_congr' fun u => not_congr (hholds u).symm
  · intro t u ht hu
    exact h.one t u ((hholds t).mp ht) ((hholds u).mp hu)
  · intro u
    rw [hm u]
    exact h.asleep u
  · intro u hu
    rw [hent u ((hm u).mp hu)]
    exact h.enters u ((hm u).mp hu)

theorem LockInv.not_holds (h : LockInv pc wait lock sleepers) (ht : Holds pc wait t) (hu : u ≠ t) :
    ¬ Holds pc wait u := fun hh => hu (h.one u t hh ht)

variable [DecidableEq T]

variable {p : Pc T V}

section

variable (h : LockInv pc wait lock sleepers)
include h

theorem LockInv.goto (hin : p.inside = (pc t).inside) (hw : wait t ≠ .mutex)
    (hm : ∀ u, wait' u = .mutex ↔ wait u = .mutex) :
    LockInv (update pc t p) wait' lock sleepers := by
  refine h.congr (update_cases hin fun _ _ => rfl) hm ?_
  · intro u hu
    refine update_of_ne ?_ ..
    rintro rfl
    exact hw hu

theorem LockInv.take (hl : lock = .avail) (hp : p.inside = true) (hlock : lock' ≠ .avail) :
    LockInv (update pc t p) wait lock' sleepers := by
  have hnone := h.free.mp hl
  have hnil : sleepers = [] := by
    by_contra hne
    rw [h.contended hne] at hl
    cases hl
  have hawake : ∀ u, wait u ≠ .mutex := by
    intro u hu
    rw [← h.asleep u, hnil] at hu
    exact not_mem_nil hu
  have honly : ∀ u, Holds (update pc t p) wait u → u = t := by
    intro u hu
    by_contra hne
    rw [Holds, update_of_ne hne] at hu
    exact hnone u hu
  refine ⟨⟨fun he => absurd he hlock, ?_⟩, ?_, h.asleep, h.nodup, ?_, absurd hnil⟩
  · intro hno
    refine absurd ⟨?_, hawake t⟩ (hno t)
    rw [update_self]
    exact hp
  · intro u v hu hv
    rw [honly u hu, honly v hv]
  · intro u hu
    exact absurd hu (hawake u)

theorem LockInv.sleep (hl : lock ≠ .avail) (hp : p.enters = true) (ht : (pc t).inside = false) :
    LockInv (update pc t p) (update wait t .mutex) .contended (sleepers ++ [t]) := by
  have hawake : wait t ≠ .mutex := by
    intro hw
    have hin := Pc.inside_of_enters (h.enters t hw)
    rw [ht] at hin
    cases hin
  have hholds : ∀ u, Holds (update pc t p) (update wait t .mutex) u ↔ Holds pc wait u := by
    intro u
    by_cases hu : u = t
    · subst hu
      constructor
      · intro hh
        exact absurd (update_self u Wait.mutex wait) hh.2
      · intro hh
        rw [Holds, ht] at hh
        cases hh.1
    · rw [Holds, Holds, update_of_ne hu, update_of_ne hu]
  refine ⟨⟨nofun, ?_⟩, ?_, ?_, ?_, ?_, fun _ => rfl⟩
  · intro hno
    exact absurd (h.free.mpr fun u hu => hno u ((hholds u).mpr hu)) hl
  · intro u v hu hv
    exact h.one u v ((hholds u).mp hu) ((hholds v).mp hv)
  · intro u
    rw [mem_append, mem_singleton]
    refine update_cases ⟨fun _ => rfl, fun _ => .inr rfl⟩ (fun u hu => ?_) u
    rw [h.asleep u]
    exact ⟨fun hh => hh.resolve_right hu, .inl⟩
  · rw [nodup_append]
    refine ⟨h.nodup, nodup_singleton t, ?_⟩
    intro a ha b hb hab
    rw [mem_singleton.mp hb] at hab
    exact hawake ((h.asleep t).mp (hab ▸ ha))
  · intro u hu
    by_cases hut : u = t
    · subst hut
      rw [update_self]
      exact hp
    · rw [update_of_ne hut] at hu ⊢
      exact h.enters u hu

theorem LockInv.free_of_nil (ht : Holds pc wait t) (hnil : sleepers = []) (hp : p.inside = false) :
    LockInv (update pc t p) wait .avail sleepers := by
  have hnone : ∀ u, ¬ Holds (update pc t p) wait u := by
    unfold Holds
    refine update_cases (fun hu => ?_) fun u hut hu => h.not_holds ht hut hu
    rw [hp] at hu
    cases hu.1
  refine ⟨⟨fun _ => hnone, fun _ => rfl⟩, fun u _ hu => absurd hu (hnone u), h.asleep, h.nodup,
    ?_, absurd hnil⟩
  intro u hu
  rw [← h.asleep u, hnil] at hu
  exact absurd hu not_mem_nil

end

theorem LockInv.hand (h : LockInv pc wait lock (u :: sleepers)) (ht : Holds pc wait t)
    (hp : p.inside = false) :
    LockInv (update pc t p) (update wait u .none) lock sleepers := by
  have hu : wait u = .mutex := (h.asleep u).mp mem_cons_self
  have hut : u ≠ t := fun he => ht.2 (he ▸ hu)
  obtain ⟨hnot, hnd⟩ := nodup_cons.mp h.nodup
  have honly : ∀ v, Holds (update pc t p) (update wait u .none) v → v = u := by
    intro v hv
    by_contra hvu
    rw [Holds, update_of_ne hvu] at hv
    by_cases hvt : v = t
    · subst hvt
      rw [update_self, hp] at hv
      cases hv.1
    · rw [update_of_ne hvt] at hv
      exact h.not_holds ht hvt hv
  have hcont : lock = .contended := h.contended (cons_ne_nil _ _)
  refine ⟨⟨fun he => absurd ht (h.free.mp he t), ?_⟩, ?_, ?_, hnd, ?_, fun _ => hcont⟩
  · intro hno
    refine absurd ⟨?_, ?_⟩ (hno u)
    · rw [update_of_ne hut]
      exact Pc.inside_of_enters (h.enters u hu)
    · rw [update_self]
      exact nofun
  · intro v w hv hw
    rw [honly v hv, honly w hw]
  · refine update_cases ⟨fun hm => absurd hm hnot, nofun⟩ fun v hvu => ?_
    rw [← h.asleep v]
    exact ⟨mem_cons_of_mem u, fun hm => (mem_cons.mp hm).resolve_left hvu⟩
  · refine update_cases nofun fun v _ hv => ?_
    have hvt : v ≠ t := fun he => ht.2 (he ▸ hv)
    rw [update_of_ne hvt]
    exact h.enters v hv

end

/-! ## Places -/

def State.Awake (s : State T V) (t : T) : Prop := s.wait t = .none ∧ s.result t = .awakened

def Pc.listed : Pc T V → Bool
  | .waitQueued _ => true
  | .waitBlocked _ => true
  | .leaveEnter => true
  | .leaveLocked => true
  | _ => false

/-- What holds of the thread `t` at one place in the code. -/
def Here (s : State T V) (t : T) : Pc T V → Prop
  | .waitChecked e _ => s.seen t = e ∧ s.passed t = false
  | .waitQueued _ => t ∈ s.queue ∧ ¬ s.Awake t
  | .waitBlocked _ =>
    (s.wait t = .gsync → t ∈ s.queue ∨ s.Cleared t) ∧ (t ∈ s.queue → ¬ s.Awake t)
  | .wakeEnter _ _ => s.spent t = []
  | .wakeLocked _ _ => s.spent t = []
  | .wakeFind _ => s.spent t = []
  | .wakeTake b => b = false → s.spent t = []
  | .wakeClear b v => (b = false → s.spent t = []) ∧ v ∉ s.queue ∧ ¬ s.Woken v
  | .wakeDone b true => s.spent t ≠ [] ∧ (b = false → (s.spent t).length = 1)
  | .wakeDone _ false => s.spent t = []
  | _ => True

structure OkAt (s : State T V) (t : T) (p : Pc T V) : Prop where
  gsync : s.wait t = .gsync → p.waits = true
  listed : t ∈ s.queue → p.listed = true
  here : Here s t p

def Ok (s : State T V) (t : T) : Prop := OkAt s t (s.pc t)

def Books (s : State T V) : Prop :=
  ∃ ws : List T, ws.Nodup ∧ (∀ t, t ∈ ws ↔ s.Woken t) ∧ s.dequeued.Perm (s.succeeded ++ ws)

structure Inv (s : State T V) : Prop where
  lock : LockInv s.pc s.wait s.lock s.sleepers
  ok : ∀ t, Ok s t
  nodup : s.queue.Nodup
  books : Books s

variable {s s' : State T V} {t u : T}

structure Quiet (s s' : State T V) (u : T) : Prop where
  pc : s'.pc u = s.pc u
  queue : u ∈ s'.queue ↔ u ∈ s.queue
  gsync : s'.wait u = .gsync ↔ s.wait u = .gsync
  awake : (s.pc u).waits = true → (s'.Awake u ↔ s.Awake u)
  spent : s'.spent u = s.spent u
  checked : ∀ e timed, s.pc u = .waitChecked e timed →
    s'.seen u = s.seen u ∧ s'.passed u = s.passed u
  cleared : s.Cleared u → s'.Cleared u
  /-- A waiter that the thread has taken out does not come back, and is not woken by others. -/
  taken : ∀ b v, s.pc u = .wakeClear b v → v ∉ s.queue → ¬ s.Woken v →
    v ∉ s'.queue ∧ ¬ s'.Woken v

theorem Here.frame (h : Here s u (s.pc u)) (hq : Quiet s s' u) : Here s' u (s.pc u) := by
  cases hp : s.pc u with
  | waitChecked e timed =>
    obtain ⟨h1, h2⟩ := hq.checked e timed hp
    rw [hp] at h
    exact ⟨h1.trans h.1, h2.trans h.2⟩
  | waitQueued timed =>
    rw [hp] at h
    have hawake := hq.awake (by rw [hp]; rfl)
    exact ⟨hq.queue.mpr h.1, fun hw => h.2 (hawake.mp hw)⟩
  | waitBlocked timed =>
    rw [hp] at h
    have hawake := hq.awake (by rw [hp]; rfl)
    refine ⟨fun hw => ?_, fun hm hw => h.2 (hq.queue.mp hm) (hawake.mp hw)⟩
    exact (h.1 (hq.gsync.mp hw)).imp hq.queue.mpr hq.cleared
  | wakeClear b v =>
    rw [hp] at h
    exact ⟨fun hb => hq.spent.trans (h.1 hb), hq.taken b v hp h.2.1 h.2.2⟩
  | wakeDone b r =>
    rw [hp] at h
    cases r <;> simpa only [Here, hq.spent] using h
  | wakeEnter | wakeLocked | wakeFind | wakeTake =>
    rw [hp] at h
    simpa only [Here, hq.spent] using h
  | _ => trivial

theorem Ok.frame (h : Ok s u) (hq : Quiet s s' u) : Ok s' u := by
  unfold Ok
  rw [hq.pc]
  exact ⟨fun hw => h.gsync (hq.gsync.mp hw), fun hm => h.listed (hq.queue.mp hm), h.here.frame hq⟩

/-! ## Books -/

theorem Books.congr (h : Books s) (hw : ∀ u, s'.Woken u ↔ s.Woken u)
    (hd : s'.dequeued = s.dequeued) (hs : s'.succeeded = s.succeeded) : Books s' := by
  obtain ⟨ws, hnd, hmem, hperm⟩ := h
  refine ⟨ws, hnd, fun u => (hmem u).trans (hw u).symm, ?_⟩
  rw [hd, hs]
  exact hperm

theorem Books.wake (h : Books s) (hno : ¬ s.Woken t) (ht : s'.Woken t)
    (hw : ∀ u, u ≠ t → (s'.Woken u ↔ s.Woken u)) (hd : s'.dequeued = t :: s.dequeued)
    (hs : s'.succeeded = s.succeeded) : Books s' := by
  obtain ⟨ws, hnd, hmem, hperm⟩ := h
  refine ⟨t :: ws, nodup_cons.mpr ⟨fun hm => hno ((hmem t).mp hm), hnd⟩, ?_, ?_⟩
  · intro u
    rw [mem_cons]
    by_cases hu : u = t
    · subst hu
      exact ⟨fun _ => ht, fun _ => .inl rfl⟩
    · rw [hw u hu, ← hmem u]
      exact ⟨fun hh => hh.resolve_left hu, .inr⟩
  · rw [hd, hs]
    exact (hperm.cons t).trans perm_middle.symm

theorem Books.succeed (h : Books s) (ht : s.Woken t) (hno : ¬ s'.Woken t)
    (hw : ∀ u, u ≠ t → (s'.Woken u ↔ s.Woken u)) (hd : s'.dequeued = s.dequeued)
    (hs : s'.succeeded = t :: s.succeeded) : Books s' := by
  obtain ⟨ws, hnd, hmem, hperm⟩ := h
  obtain ⟨as, bs, rfl⟩ := append_of_mem ((hmem t).mpr ht)
  obtain ⟨hnot, hnd'⟩ := nodup_cons.mp (nodup_middle.mp hnd)
  refine ⟨as ++ bs, hnd', ?_, ?_⟩
  · intro u
    by_cases hu : u = t
    · subst hu
      exact ⟨fun hm => absurd hm hnot, fun hm => absurd hm hno⟩
    · rw [hw u hu, ← hmem u]
      simp [hu]
  · rw [hd, hs]
    exact hperm.trans ((perm_middle.append_left s.succeeded).trans perm_middle)

end Mach.Kern.GsyncWake
