import Mach.Ipc.Circularity

/-!
# The destination graph stays acyclic

The invariant has a part per thread: the receive right a thread is checking
stays in limbo while it does, and what it has locked in its search is a path of
`ip_destination` links from `dest` to `base`. Both survive the steps of the other
threads because those need a lock or a right that this thread holds. At the end
of the search the path is complete, so "is `port` the end of it" is the same
question as "does `dest` reach `port`".
-/

namespace Mach.Ipc.Circularity

open Lib.Chain Function List State Option

variable {P T : Type}

def Pc.held : Pc P → List P
  | .walk _ _ _ chain => chain
  | .found _ _ base chain => chain ++ [base]
  | .unlocking _ locked _ => locked
  | _ => []

/-- The receive right of `port` is in limbo, in the hands of thread `t`. -/
structure State.Holds (s : State P T) (t : T) (port : P) : Prop where
  mine : s.checked port = some t
  active : (s.port port).active
  limbo : (s.port port).place = .limbo

def State.Ready (s : State P T) (t : T) : Pc P → Prop
  | .idle => True
  | .start port dest | .slow port dest => s.Holds t port ∧ port ≠ dest
  | .walk port dest base chain =>
    s.Holds t port ∧ s.multi = some t ∧ Path s.next dest chain base
  | .found port dest base chain =>
    s.Holds t port ∧ s.multi = some t ∧ Path s.next dest chain base ∧ s.next base = none
  | .unlocking port _ _ => s.checked port = some t

structure Inv (s : State P T) : Prop where
  acyclic : Acyclic s.next
  locks : ∀ p t, s.lock p = some t ↔ p ∈ (s.pc t).held
  nodup : ∀ t, (s.pc t).held.Nodup
  ready : ∀ t, s.Ready t (s.pc t)

/-! ## Frames -/

variable {s s' : State P T} {t u : T} {port dest p : P} {pc : Pc P}

theorem State.Holds.next_eq_none (h : s.Holds t port) : s.next port = none := by
  simp [State.next, Port.next, h.limbo]

theorem State.Holds.frame (h : s.Holds t port)
    (hown : ∀ p, s.checked p = some t → s'.checked p = some t ∧ s'.port p = s.port p) :
    s'.Holds t port := by
  obtain ⟨hc, hp⟩ := hown port h.mine
  exact ⟨hc, hp ▸ h.active, hp ▸ h.limbo⟩

theorem State.Ready.frame (h : s.Ready t pc)
    (hown : ∀ p, s.checked p = some t → s'.checked p = some t ∧ s'.port p = s.port p)
    (hheld : ∀ p ∈ pc.held, s'.port p = s.port p) (hm : s.multi = some t → s'.multi = some t) :
    s'.Ready t pc := by
  have hnext : ∀ p ∈ pc.held, s'.next p = s.next p := by
    intro p hp
    rw [State.next, hheld p hp]
    rfl
  cases pc with
  | idle => trivial
  | start port dest | slow port dest => exact ⟨h.1.frame hown, h.2⟩
  | walk port dest base chain =>
    obtain ⟨hh, hmu, hpath⟩ := h
    exact ⟨hh.frame hown, hm hmu, hpath.congr hnext⟩
  | found port dest base chain =>
    obtain ⟨hh, hmu, hpath, hend⟩ := h
    refine ⟨hh.frame hown, hm hmu, hpath.congr fun p hp => ?_, ?_⟩
    · exact hnext p (mem_append_left _ hp)
    · rw [hnext base (mem_append_right _ (mem_singleton_self base))]
      exact hend
  | unlocking port locked result => exact (hown port h).1

theorem next_setPort [DecidableEq P] (s : State P T) (p : P) (x : Port P) :
    (s.setPort p x).next = update s.next p x.next := by
  funext q
  by_cases hq : q = p
  · subst hq
    simp [State.next, setPort]
  · simp [State.next, setPort, hq]

theorem quick_not_reaches (hne : port ≠ dest) (hd : s.next dest = none) :
    ¬ Reaches s.next dest port :=
  fun hr => hne (reaches_of_none hd hr).symm

theorem found_reaches_iff {base : P} {chain : List P} (hold : s.Holds t port)
    (hpath : Path s.next dest chain base) (hend : s.next base = none) :
    Reaches s.next dest port ↔ port = base := by
  rw [hpath.reaches_iff hend]
  constructor
  · rintro (hmem | heq)
    · obtain ⟨y, hy, _⟩ := Relation.TransGen.head'_iff.mp (hpath.mem_trans port hmem)
      rw [Link, hold.next_eq_none] at hy
      exact absurd hy (by simp)
    · exact heq
  · exact .inr

theorem Inv.init (h : Circularity.init s) : Inv s := by
  obtain ⟨hplace, hpc, hlock, -, -⟩ := h
  have hnext : s.next = fun _ => none := by
    funext p
    unfold State.next Port.next
    split
    · split
      next d hd => exact absurd hd (hplace p d)
      next => rfl
    · rfl
  refine ⟨fun a ha => ?_, fun p t => ?_, fun t => ?_, fun t => ?_⟩
  · obtain ⟨b, hab, _⟩ := Relation.TransGen.head'_iff.mp ha
    rw [Link, hnext] at hab
    exact absurd hab (by simp)
  · rw [hlock, hpc]
    simp [Pc.held]
  · rw [hpc]
    exact nodup_nil
  · rw [hpc]
    trivial

theorem Inv.move [DecidableEq T] (h : Inv s) (hpc : s'.pc = update s.pc t pc)
    (hac : Acyclic s'.next) (hmine : ∀ p, s'.lock p = some t ↔ p ∈ pc.held)
    (hnd : pc.held.Nodup) (hready : s'.Ready t pc)
    (hport : ∀ p, s'.port p ≠ s.port p → s.checked p = some t ∧ s.lock p = none)
    (hlock : ∀ p u, u ≠ t → (s'.lock p = some u ↔ s.lock p = some u))
    (hmulti : ∀ u, u ≠ t → s.multi = some u → s'.multi = some u := by exact fun _ _ hm => hm)
    (hchk : ∀ p u, u ≠ t → s.checked p = some u → s'.checked p = some u := by exact fun _ _ _ hp => hp) :
    Inv s' := by
  have hothers : ∀ u, u ≠ t → s'.Ready u (s.pc u) := by
    intro u hu
    refine (h.ready u).frame (fun p hp => ⟨hchk p u hu hp, ?_⟩) (fun p hp => ?_) (hmulti u hu)
    · by_contra hne
      have := (hport p hne).1
      rw [hp] at this
      exact hu (some.inj this)
    · by_contra hne
      have := (hport p hne).2
      rw [(h.locks p u).mpr hp] at this
      exact absurd this (by simp)
  refine ⟨hac, fun p u => ?_, fun u => ?_, fun u => ?_⟩
  all_goals
    rw [hpc]
    by_cases hu : u = t
  · subst hu; rw [update_self]; exact hmine p
  · rw [update_of_ne hu]; exact (hlock p u hu).trans (h.locks p u)
  · subst hu; rw [update_self]; exact hnd
  · rw [update_of_ne hu]; exact h.nodup u
  · subst hu; rw [update_self]; exact hready
  · rw [update_of_ne hu]; exact hothers u hu

section

variable (h : Inv s) (hpc : s.pc t = pc)
include h hpc

theorem Inv.mine (p : P) : s.lock p = some t ↔ p ∈ pc.held :=
  hpc ▸ h.locks p t

theorem Inv.readyAt : s.Ready t pc := hpc ▸ h.ready t

theorem Inv.nodupAt : pc.held.Nodup := hpc ▸ h.nodup t

theorem Inv.along [DecidableEq T] (pc' : Pc P) {multi : Option T} {checked : P → Option T}
    (hready : ({ s with multi := multi, checked := checked }.setPc t pc').Ready t pc')
    (hchk : ∀ p u, u ≠ t → s.checked p = some u → checked p = some u := by exact fun _ _ _ hp => hp)
    (hmulti : ∀ u, u ≠ t → s.multi = some u → multi = some u := by exact fun _ _ hm => hm)
    (hheld : pc'.held = pc.held := by rfl) :
    Inv ({ s with multi := multi, checked := checked }.setPc t pc') :=
  h.move rfl h.acyclic (hheld ▸ h.mine hpc) (hheld ▸ h.nodupAt hpc) hready
    (fun _ hp => absurd rfl hp) (fun _ _ _ => Iff.rfl) hmulti hchk

omit h hpc in
theorem Inv.walk_waits (h : Inv s) {base : P} {chain : List P}
    (hpc : s.pc t = .walk port dest base chain) (hu : u ≠ t) (hl : s.lock p = some u) :
    ∃ port' locked result, s.pc u = .unlocking port' locked result := by
  obtain ⟨-, hmu, -⟩ := h.readyAt hpc
  have hheld := (h.locks p u).mp hl
  have hready := h.ready u
  cases hpcu : s.pc u with
  | idle | start | slow =>
    rw [hpcu] at hheld
    exact absurd hheld not_mem_nil
  | walk | found =>
    rw [hpcu] at hready
    have := hready.2.1
    rw [hmu] at this
    exact absurd (some.inj this).symm hu
  | unlocking port' locked result => exact ⟨port', locked, result, rfl⟩

theorem Inv.nodup_held {b : P} (hb : s.lock b = none) : (pc.held ++ [b]).Nodup := by
  refine nodup_append.mpr ⟨h.nodupAt hpc, nodup_singleton b, ?_⟩
  rintro x hx y hy rfl
  rw [mem_singleton] at hy
  subst hy
  rw [(h.mine hpc x).mpr hx] at hb
  exact absurd hb (by simp)

end

variable [DecidableEq P]

theorem Inv.release (h : Inv s) (hf : s.free p) {x : Port P} (hx : x.next = none) :
    Inv (s.setPort p x) := by
  simp only [free, Bool.and_eq_true, isNone_iff_eq_none] at hf
  obtain ⟨⟨-, hlock⟩, hchk⟩ := hf
  have hport : ∀ q, q ≠ p → (s.setPort p x).port q = s.port q := by
    intro q hq
    simp [setPort, hq]
  refine ⟨?_, h.locks, h.nodup, fun t => (h.ready t).frame (fun q hq => ⟨hq, hport q ?_⟩)
    (fun q hq => hport q ?_) id⟩
  · rw [next_setPort, hx]
    exact h.acyclic.cut p
  · rintro rfl
    rw [hchk] at hq
    exact absurd hq (by simp)
  · rintro rfl
    rw [← h.locks, hlock] at hq
    exact absurd hq (by simp)

/-! ## One step -/

theorem lock_setLock {q : P} {o : Option T} :
    (s.setLock p o).lock q = if q = p then o else s.lock q := by
  simp [setLock, update_apply]

theorem Inv.acyclic_link (h : Inv s) (hold : s.Holds t port) (hno : ¬ Reaches s.next dest port) :
    Acyclic (s.link port dest).next := by
  have hx : ({ s.port port with place := .transit dest } : Port P).next = some dest := by
    simp [Port.next, hold.active]
  rw [link, next_setPort, hx]
  exact h.acyclic.link hold.next_eq_none hno

theorem link_port (hp : (s.link port dest).port p ≠ s.port p) : p = port := by
  by_contra hne
  exact hp (by simp [link, setPort, hne])

theorem Inv.lock_held (h : Inv s) (hpc : s.pc t = pc) (b p : P) :
    (s.setLock b (some t)).lock p = some t ↔ p ∈ pc.held ++ [b] := by
  rw [lock_setLock, mem_append, mem_singleton]
  split
  next hp => exact ⟨fun _ => .inr hp, fun _ => rfl⟩
  next hp =>
    rw [h.mine hpc]
    exact ⟨.inl, fun hh => hh.resolve_right hp⟩

theorem Inv.lock_others {b : P} (hb : s.lock b = none) (hu : u ≠ t) (p : P) :
    (s.setLock b (some t)).lock p = some u ↔ s.lock p = some u := by
  rw [lock_setLock]
  split
  next hp =>
    subst hp
    rw [hb]
    simpa using Ne.symm hu
  next => exact Iff.rfl

theorem checked_update (hc : s.checked port = none) (hp : s.checked p = some u) :
    update s.checked port (some t) p = some u := by
  have hne : p ≠ port := by
    rintro rfl
    rw [hc] at hp
    exact absurd hp (by simp)
  rwa [update_of_ne hne]

variable [DecidableEq T]

theorem Inv.step {a : Action P T} (h : Inv s) (hs : Step s a s') : Inv s' := by
  cases hs with
  | toLimbo hf | copyout hf | destroy hf => exact h.release hf (by simp [Port.next])
  | same hpc hc =>
    exact h.along hpc (.unlocking _ [] true) (update_self ..) fun _ _ _ hp => checked_update hc hp
  | check hpc ha hl hc hne =>
    exact h.along hpc (.start _ _) ⟨⟨update_self .., ha, hl⟩, hne⟩
      fun _ _ _ hp => checked_update hc hp
  | quick hpc hp hd =>
    obtain ⟨hold, hne⟩ := h.readyAt hpc
    have hlocks := h.mine hpc
    refine h.move rfl (h.acyclic_link hold (quick_not_reaches hne hd)) hlocks
      nodup_nil hold.mine (fun p hpp => ?_) fun _ _ _ => Iff.rfl
    obtain rfl := link_port hpp
    exact ⟨hold.mine, hp⟩
  | further hpc =>
    obtain ⟨⟨hmine, hact, hlim⟩, hne⟩ := h.readyAt hpc
    exact h.along hpc (.slow _ _) ⟨⟨hmine, hact, hlim⟩, hne⟩
  | serialize hpc hm =>
    obtain ⟨⟨hmine, hact, hlim⟩, hne⟩ := h.readyAt hpc
    refine h.along hpc (.walk _ _ _ []) ⟨⟨hmine, hact, hlim⟩, rfl, rfl⟩ (fun _ _ _ hp => hp)
      fun u _ hmu => ?_
    rw [hm] at hmu
    exact absurd hmu (by simp)
  | @lockLast t port dest base chain hpc hb hn =>
    obtain ⟨⟨hmine, hact, hlim⟩, hmu, hpath⟩ := h.readyAt hpc
    exact h.move rfl h.acyclic (h.lock_held hpc base) (h.nodup_held hpc hb)
      ⟨⟨hmine, hact, hlim⟩, hmu, hpath, hn⟩ (fun p hp => absurd rfl hp)
      fun p u hu => Inv.lock_others hb hu p
  | @lockBase t port dest base d chain hpc hb hn =>
    obtain ⟨⟨hmine, hact, hlim⟩, hmu, hpath⟩ := h.readyAt hpc
    exact h.move rfl h.acyclic (h.lock_held hpc base) (h.nodup_held hpc hb)
      ⟨⟨hmine, hact, hlim⟩, hmu, hpath.snoc hn⟩ (fun p hp => absurd rfl hp)
      fun p u hu => Inv.lock_others hb hu p
  | @circular t port dest chain hpc =>
    obtain ⟨hold, hmu, -, -⟩ := h.readyAt hpc
    refine h.along hpc (.unlocking _ _ true) hold.mine (fun _ _ _ hp => hp) fun u hu hm => ?_
    rw [hmu] at hm
    exact absurd (some.inj hm).symm hu
  | @conclude t port dest base chain hpc hne hp =>
    obtain ⟨hold, hmu, hpath, hend⟩ := h.readyAt hpc
    have hno : ¬ Reaches s.next dest port := fun hr =>
      hne ((found_reaches_iff hold hpath hend).mp hr)
    have hperm := perm_append_singleton port (chain ++ [base])
    refine h.move rfl (h.acyclic_link hold hno) (fun p => ?_)
      (hperm.nodup_iff.mp (h.nodup_held hpc hp)) hold.mine (fun p hpp => ?_)
      (fun p u hu => Inv.lock_others hp hu p) fun u hu hm => ?_
    · exact (h.lock_held hpc port p).trans hperm.mem_iff
    · obtain rfl := link_port hpp
      exact ⟨hold.mine, hp⟩
    · rw [hmu] at hm
      exact absurd (some.inj hm).symm hu
  | @unlock t port p ps result hpc =>
    have hlocks := h.mine hpc
    obtain ⟨hp, hnd⟩ := nodup_cons.mp (h.nodupAt hpc)
    have hfirst : s.lock p = some t := (hlocks p).mpr mem_cons_self
    refine h.move rfl h.acyclic (fun q => ?_) hnd (h.readyAt hpc) (fun p hp => absurd rfl hp)
      fun q u hu => ?_
    · show (s.setLock p none).lock q = some t ↔ q ∈ ps
      rw [lock_setLock]
      split
      next hq =>
        subst hq
        exact ⟨fun hc => absurd hc (by simp), fun hq => absurd hq hp⟩
      next hq =>
        rw [hlocks q]
        exact ⟨fun hm => (mem_cons.mp hm).resolve_left hq, mem_cons_of_mem p⟩
    · show (s.setLock p none).lock q = some u ↔ s.lock q = some u
      rw [lock_setLock]
      split
      next hq =>
        subst hq
        rw [hfirst]
        simpa using Ne.symm hu
      next => exact Iff.rfl
  | @done t port result hpc =>
    have hmine : s.checked port = some t := h.readyAt hpc
    refine h.along hpc .idle trivial fun p u hu hp => ?_
    have hne : p ≠ port := by
      rintro rfl
      rw [hmine] at hp
      exact hu (some.inj hp).symm
    rwa [update_of_ne hne]

theorem Inv.reach {ok : State P T → Action P T → Prop} (hr : lts.Reach ok s) : Inv s :=
  hr.inv (I := Inv) (fun _ h => Inv.init h) fun _ _ _ hI _ h => hI.step (step_inv h)

/-! ## The property -/

/-- The step `a` of thread `t` answers its question whether queueing `port` in a
message for `dest` would create a circle. -/
def Answers (s : State P T) (a : Action P T) (s' : State P T) (t : T) (port dest : P)
    (result : Bool) : Prop :=
  step s a = some s' ∧
  (a = .check t port dest ∨ (∃ got, a = .quick t got) ∧ s.pc t = .start port dest ∨
    a = .conclude t ∧ ∃ base chain, s.pc t = .found port dest base chain) ∧
  ∃ locked, s'.pc t = .unlocking port locked result

theorem Inv.answer {a : Action P T} {result : Bool} (h : Inv s)
    (ha : Answers s a s' t port dest result) :
    result = true ↔ Reaches s.next dest port := by
  obtain ⟨hs, hask, locked, hans⟩ := ha
  have hstep := step_inv hs
  rcases hask with rfl | ⟨⟨got, rfl⟩, hpc⟩ | ⟨rfl, base, chain, hpc⟩
  · cases hstep with
    | same =>
      simp only [setPc, update_self, Pc.unlocking.injEq] at hans
      rw [← hans.2.2]
      exact ⟨fun _ => .refl, fun _ => rfl⟩
    | check => simp [setPc] at hans
  · have hready := h.readyAt hpc
    cases hstep with
    | quick hpc' _ hd =>
      rw [hpc] at hpc'
      obtain ⟨rfl, rfl⟩ := hpc'
      simp only [setPc, update_self, Pc.unlocking.injEq] at hans
      rw [← hans.2.2]
      exact ⟨fun hf => absurd hf (by simp), fun hr => absurd hr (quick_not_reaches hready.2 hd)⟩
    | further => simp [setPc] at hans
  · obtain ⟨hold, -, hpath, hend⟩ := h.readyAt hpc
    rw [found_reaches_iff hold hpath hend]
    cases hstep with
    | circular hpc' =>
      rw [hpc] at hpc'
      obtain ⟨rfl, -, rfl, -⟩ := hpc'
      simp only [setPc, update_self, Pc.unlocking.injEq] at hans
      rw [← hans.2.2]
      exact ⟨fun _ => rfl, fun _ => rfl⟩
    | conclude hpc' hne =>
      rw [hpc] at hpc'
      obtain ⟨rfl, -, rfl, -⟩ := hpc'
      simp only [setPc, update_self, Pc.unlocking.injEq] at hans
      rw [← hans.2.2]
      exact ⟨fun hf => absurd hf (by simp), fun heq => absurd heq hne⟩

/-- **Receive rights in transit never form a circle.** In every reachable state
the destination graph is acyclic. Hence the search loop never comes back to a
port it has locked, waits only for threads that are about to unlock, and makes
no more turns than there are active ports; and the check answers TRUE exactly
when following `ip_destination` from `dest` reaches `port`. -/
theorem destination_acyclic {s : State P T} (hr : lts.Reach Lib.anyStep s) : Acyclic s.next ∧
    (∀ t port dest base chain, s.pc t = .walk port dest base chain → base ∉ chain ∧
      (∀ u, s.lock base = some u → ∃ port' locked result, s.pc u = .unlocking port' locked result) ∧
      ∀ F : Finset P, (∀ p, (s.port p).active → p ∈ F) → chain.length ≤ F.card) ∧
    (∀ a s' t port dest result, Answers s a s' t port dest result →
      (result = true ↔ Reaches s.next dest port)) := by
  have h := Inv.reach hr
  refine ⟨h.acyclic, fun t port dest base chain hpc => ?_, fun _ _ _ _ _ _ ha => h.answer ha⟩
  obtain ⟨-, -, hpath⟩ := h.readyAt hpc
  have hend := (hpath.nodup h.acyclic).2
  refine ⟨hend, fun u hu => ?_, fun F hF => hpath.length_le h.acyclic fun p hp => hF p ?_⟩
  · refine h.walk_waits hpc ?_ hu
    rintro rfl
    exact hend ((h.mine hpc base).mp hu)
  · by_contra hina
    exact hp (by simp [State.next, Port.next, hina])

def twoPorts : State (Fin 2) (Fin 2) where
  port _ := ⟨true, .named⟩
  pc _ := .idle
  lock _ := none
  multi := none
  checked _ := none

/-- The receive rights of two ports are sent to each other: the second check goes
the slow way and is about to conclude. -/
def crossing : List (Action (Fin 2) (Fin 2)) :=
  [.toLimbo 0, .check 0 0 1, .quick 0 true, .unlock 0, .toLimbo 1, .check 1 1 0, .quick 1 true,
   .serialize 1, .lockBase 1, .lockBase 1]

theorem crossing_runs : (lts.run twoPorts crossing).isSome := by decide

theorem twoPorts_init : init twoPorts :=
  ⟨fun _ _ => by simp [twoPorts], fun _ => rfl, fun _ => rfl, rfl, fun _ => rfl⟩

/-- The crossing message is found to be circular. -/
theorem destination_acyclic_crossing :
    Reaches ((lts.run twoPorts crossing).get crossing_runs).next 0 1 :=
  ((destination_acyclic (Lib.Lts.reach_get twoPorts_init crossing_runs)).2.2 (.conclude 1)
    ((lts.run twoPorts (crossing ++ [.conclude 1])).get (by decide)) 1 1 0 true
    ⟨by rfl, .inr (.inr ⟨rfl, 1, [0], by decide⟩), [0, 1], by decide⟩).mp rfl

end Mach.Ipc.Circularity
