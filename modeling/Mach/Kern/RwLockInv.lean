import Mathlib.Data.List.Count
import Mach.Kern.RwLock

/-!
# Exclusion and wake-ups

Each of the two flags of a lock belongs to one thread, which holds the lock in the way the flag
stands for or waits to (`Flag`), and a thread that holds the lock for writing is the only one
that holds it at all. With these, what `lock_done` reads off the counters is what its caller
holds (`core_release`).

That a sleeper is woken rests on `Sleep`: whoever sleeps has announced it, and what it waits for
has not happened. Only a call that wakes the sleepers can make it happen.
-/

namespace Mach.Kern.RwLock

open Mach.Lib Function List Bool Thread

variable {T : Type}

/-! ## Flags -/

/-- A flag of the lock that belongs to at most one thread, one of which `f` holds. -/
structure Flag (b : Bool) (f : Thread → Bool) (threads : T → Thread) : Prop where
  owned : b = true → ∃ t, f (threads t) = true
  raised : ∀ t, f (threads t) = true → b = true
  unique : ∀ t u, f (threads t) = true → f (threads u) = true → t = u

section

variable {b : Bool} {f : Thread → Bool} {threads threads' : T → Thread} {t : T} {x : Thread}

theorem Flag.eq_false (h : Flag false f threads) (t : T) : f (threads t) = false :=
  eq_false_iff.mpr fun ht => false_ne_true (h.raised t ht)

theorem Flag.congr (h : Flag b f threads) (heq : ∀ u, f (threads' u) = f (threads u)) :
    Flag b f threads' := by
  refine ⟨?_, ?_, ?_⟩
  · intro hb
    obtain ⟨t, ht⟩ := h.owned hb
    exact ⟨t, (heq t).trans ht⟩
  · intro t ht
    exact h.raised t ((heq t).symm.trans ht)
  · intro t u ht hu
    exact h.unique t u ((heq t).symm.trans ht) ((heq u).symm.trans hu)

variable [DecidableEq T]

theorem Flag.keep (h : Flag b f threads) (hx : f x = f (threads t)) :
    Flag b f (update threads t x) := by
  exact h.congr (update_cases hx fun _ _ => rfl)

theorem Flag.raise (h : Flag false f threads) (hx : f x = true) :
    Flag true f (update threads t x) := by
  have only : ∀ u, f (update threads t x u) = true → u = t := by
    intro u hu
    by_contra hne
    rw [update_of_ne hne, h.eq_false u] at hu
    cases hu
  refine ⟨fun _ => ⟨t, ?_⟩, fun _ _ => rfl, ?_⟩
  · rw [update_self, hx]
  · intro u v hu hv
    rw [only u hu, only v hv]

theorem Flag.drop (h : Flag b f threads) (ht : f (threads t) = true) (hx : f x = false) :
    Flag false f (update threads t x) := by
  have none : ∀ u, f (update threads t x u) = false := by
    refine update_cases hx fun u hu => ?_
    exact eq_false_iff.mpr fun hf => hu (h.unique u t hf ht)
  refine ⟨nofun, ?_, ?_⟩
  · intro u hu
    rw [none u] at hu
    cases hu
  · intro u _ hu
    rw [none u] at hu
    cases hu

end

/-! ## What the counters and flags say -/

def Pc.writing : Pc → Bool
  | .wait .writeWait _ => true
  | _ => false

def Thread.writes (x : Thread) : Bool := x.pc.writing || x.write

def Thread.Once (x : Thread) : Prop :=
  (x.pc.upgrading = true → x.upgrade = false) ∧ (x.pc.writing = true → x.write = false)

def Thread.concerned (x : Thread) : Bool := x.writer || x.upgrades

def Excl (threads : T → Thread) (readers : List T) : Prop :=
  ∀ t u, (threads t).writer = true → u ∈ readers ∨ (threads u).concerned = true → u = t

structure Core (s : State T) : Prop where
  readCount : s.readCount = s.readers.length
  room : s.readers.length < readLimit
  upgrade : Flag s.wantUpgrade Thread.upgrades s.threads
  write : Flag s.wantWrite Thread.writes s.threads
  once : ∀ t, (s.threads t).Once
  excl : Excl s.threads s.readers
  depth : ∀ t, (s.threads t).depth = if (s.threads t).writer then s.recursionDepth else 0
  level : s.recursionDepth ≠ 0 → ∃ t, (s.threads t).writer = true
  bound : s.recursionDepth < depthLimit

structure Same (x y : Thread) : Prop where
  write : y.write = x.write
  upgrade : y.upgrade = x.upgrade
  depth : y.depth = x.depth
  upgrading : y.pc.upgrading = x.pc.upgrading
  writing : y.pc.writing = x.pc.writing

section

variable {x y : Thread}

section

variable (h : Same x y)
include h

theorem Same.writer : y.writer = x.writer := by
  rw [Thread.writer, h.write, h.upgrade, Thread.writer]

theorem Same.upgrades : y.upgrades = x.upgrades := by
  rw [Thread.upgrades, h.upgrading, h.upgrade, Thread.upgrades]

theorem Same.concerned : y.concerned = x.concerned := by
  rw [Thread.concerned, h.writer, h.upgrades, Thread.concerned]

theorem Same.writes : y.writes = x.writes := by
  rw [Thread.writes, h.writing, h.write, Thread.writes]

theorem Same.once (hx : x.Once) : y.Once := by
  rw [Thread.Once, h.upgrading, h.upgrade, h.writing, h.write]
  exact hx

end

theorem same_wake (x : Thread) : Same x x.wake := by
  obtain ⟨pc, write, upgrade, depth⟩ := x
  cases pc with
  | out => exact ⟨rfl, rfl, rfl, rfl, rfl⟩
  | wait l b => cases l <;> exact ⟨rfl, rfl, rfl, rfl, rfl⟩

end

variable {s : State T} {t u : T}

variable {threads : T → Thread} {x : Thread}

theorem Core.same (h : Core s) {waiting : Bool} {thread : Option T}
    (hs : ∀ u, Same (s.threads u) (threads u)) :
    Core { s with threads := threads, waiting := waiting, thread := thread } where
  readCount := h.readCount
  room := h.room
  upgrade := h.upgrade.congr fun u => (hs u).upgrades
  write := h.write.congr fun u => (hs u).writes
  once := fun u => (hs u).once (h.once u)
  excl := by
    intro u v hu hv
    rw [(hs u).writer] at hu
    rw [(hs v).concerned] at hv
    exact h.excl u v hu hv
  depth := by
    intro u
    rw [(hs u).depth, (hs u).writer]
    exact h.depth u
  level := by
    intro hd
    obtain ⟨u, hu⟩ := h.level hd
    exact ⟨u, (hs u).writer.trans hu⟩
  bound := h.bound

theorem core_wakeup (h : Core s) : Core s.wakeup := by
  unfold State.wakeup
  split
  · exact h.same fun u => same_wake _
  · exact h

def State.Alone (s : State T) (t : T) : Prop :=
  ∀ u, u ≠ t → u ∉ s.readers ∧ (s.threads u).concerned = false

theorem concerned_of_writer (h : x.writer = true) : x.concerned = true := by
  rw [concerned, h, Bool.true_or]

theorem concerned_of_upgrades (h : x.upgrades = true) : x.concerned = true := by
  rw [concerned, h, Bool.or_true]

theorem Core.alone (h : Core s) (ht : (s.threads t).writer = true) : s.Alone t := by
  intro u hu
  constructor
  · intro hmem
    exact hu (h.excl t u ht (.inl hmem))
  · exact eq_false_iff.mpr fun hc => hu (h.excl t u ht (.inr hc))

theorem State.Alone.writer (h : s.Alone t) (hu : u ≠ t) : (s.threads u).writer = false := by
  refine eq_false_iff.mpr ?_
  intro hw
  have hc := (h u hu).2
  rw [concerned_of_writer hw] at hc
  cases hc

section

variable (h : Core s) (hr : s.readCount = 0)
include h hr

theorem Core.readers_eq_nil : s.readers = [] :=
  eq_nil_of_length_eq_zero (h.readCount.symm.trans hr)

theorem Core.alone_of_free (hu : s.wantUpgrade = false)
    (ht : (s.threads t).writes = true) : s.Alone t := by
  have hup := hu ▸ h.upgrade
  intro u hne
  refine ⟨?_, Bool.eq_false_iff.mpr ?_⟩
  · rw [h.readers_eq_nil hr]
    exact not_mem_nil
  intro hc
  rw [concerned, hup.eq_false u, Bool.or_false, writer, Bool.or_eq_true] at hc
  rcases hc with hw | hg
  · exact hne (h.write.unique u t (by rw [writes, hw, Bool.or_true]) ht)
  · have hf := hup.eq_false u
    rw [upgrades, hg, Bool.or_true] at hf
    cases hf

theorem Core.alone_of_upgrade (ht : (s.threads t).upgrades = true) : s.Alone t := by
  intro u hne
  refine ⟨?_, eq_false_iff.mpr ?_⟩
  · rw [h.readers_eq_nil hr]
    exact not_mem_nil
  intro hc
  rw [concerned, or_eq_true] at hc
  rcases hc with hw | hg
  · exact hne (h.excl u t hw (.inr (concerned_of_upgrades ht))).symm
  · exact hne (h.upgrade.unique u t hg ht)

end

variable [DecidableEq T]

theorem Excl.update {readers : List T} (h : Excl threads readers)
    (hx : x.writer = true → ∀ u, u ≠ t → u ∉ readers ∧ (threads u).concerned = false)
    (hy : x.concerned = true → ∀ u, u ≠ t → (threads u).writer = false) :
    Excl (update threads t x) readers := by
  intro u v hu hv
  by_contra hne
  by_cases hut : u = t
  · subst hut
    rw [update_self] at hu
    rw [update_of_ne hne] at hv
    obtain ⟨hmem, hc⟩ := hx hu v hne
    rcases hv with hv | hv
    · exact hmem hv
    · rw [hc] at hv
      cases hv
  · rw [update_of_ne hut] at hu
    rcases hv with hv | hv
    · exact hne (h u v hu (.inl hv))
    · by_cases hvt : v = t
      · subst hvt
        rw [update_self] at hv
        rw [hy hv u hut] at hu
        cases hu
      · rw [update_of_ne hvt] at hv
        exact hne (h u v hu (.inr hv))

section

variable (h : Core s)
include h

theorem Core.put_alone (ha : s.Alone t) {wantUpgrade wantWrite : Bool} {d : Nat}
    (hup : Flag wantUpgrade Thread.upgrades (update s.threads t x))
    (hwr : Flag wantWrite Thread.writes (update s.threads t x)) (honce : x.Once)
    (hdepth : x.depth = if x.writer then d else 0) (hlevel : d ≠ 0 → x.writer = true)
    (hbound : d < depthLimit) :
    Core ({ s with wantUpgrade := wantUpgrade, wantWrite := wantWrite
                   recursionDepth := d }.put t x) := by
  refine ⟨h.readCount, h.room, hup, hwr,
    update_cases (motive := fun _ => Thread.Once) honce fun u _ => h.once u,
    h.excl.update (fun _ => ha) fun _ u hu => ha.writer hu, ?_, ?_, hbound⟩
  · refine update_cases (motive := fun _ (y : Thread) => y.depth = ite y.writer d 0) hdepth
      fun u hu => ?_
    have hd := h.depth u
    rw [ha.writer hu] at hd ⊢
    exact hd
  · intro hd
    refine ⟨t, ?_⟩
    show (update s.threads t x t).writer = true
    rw [update_self]
    exact hlevel hd

theorem Core.goto {wantUpgrade wantWrite waiting : Bool} {pc : Pc}
    (hup : Flag wantUpgrade Thread.upgrades (update s.threads t { s.threads t with pc := pc }))
    (hwr : Flag wantWrite writes (update s.threads t { s.threads t with pc := pc }))
    (honce : { s.threads t with pc := pc : Thread }.Once)
    (hexcl : pc.upgrading = true → ∀ u, u ≠ t → (s.threads u).writer = false) :
    Core ({ s with wantUpgrade := wantUpgrade, wantWrite := wantWrite
                   waiting := waiting }.goto t pc) := by
  refine ⟨h.readCount, h.room, hup, hwr,
    update_cases (motive := fun _ => Thread.Once) honce fun u _ => h.once u,
    h.excl.update h.alone ?_, ?_, ?_, h.bound⟩
  · intro hc u hu
    by_cases hw : (s.threads t).concerned = true
    · exact Bool.eq_false_iff.mpr fun hwu => hu (h.excl u t hwu (.inr hw)).symm
    · refine hexcl ?_ u hu
      -- a thread that was not concerned is so now because of where it waits
      by_contra hno
      rw [Bool.not_eq_true] at hno
      apply hw
      rw [concerned, upgrades, hno] at hc
      rw [concerned, upgrades]
      rcases Bool.or_eq_true_iff.mp hc with hwr | hg
      · rw [show (s.threads t).writer = true from hwr, Bool.true_or]
      · rw [show (s.threads t).upgrade = true from hg, Bool.or_true, Bool.or_true]
  · exact update_cases (motive := fun _ (y : Thread) => y.depth = ite y.writer s.recursionDepth 0)
      (h.depth t) fun u _ => h.depth u
  · intro hd
    obtain ⟨u, hu⟩ := h.level hd
    refine ⟨u, ?_⟩
    revert hu
    show (s.threads u).writer = true → (update s.threads t _ u).writer = true
    exact update_cases id (fun _ _ => id) u

/-! ## Changes of the flags and counters -/

theorem core_raiseUpgrade (hpc : (s.threads t).pc = .out) (hup : s.wantUpgrade = false)
    (hmem : t ∈ s.readers) :
    Core ({ s with wantUpgrade := true }.goto t (.wait .upgradeWait false)) := by
  have hflag := hup ▸ h.upgrade
  have hno : (s.threads t).upgrade = false := by
    have hf := hflag.eq_false t
    rwa [upgrades, hpc] at hf
  refine h.goto (hflag.raise rfl) (h.write.keep ?_) ⟨fun _ => hno, nofun⟩ ?_
  · rw [writes, writes, hpc]
    rfl
  -- whoever writes is the reader itself
  intro _ u hu
  exact eq_false_iff.mpr fun hw => hu (h.excl u t hw (.inl hmem)).symm

theorem core_raiseWrite (hup : (s.threads t).pc.upgrading = false) (hwr : s.wantWrite = false) :
    Core ({ s with wantWrite := true }.goto t (.wait .writeWait false)) := by
  have hflag := hwr ▸ h.write
  have hno : (s.threads t).write = false := by
    have hf := hflag.eq_false t
    rw [writes, or_eq_false_iff] at hf
    exact hf.2
  refine h.goto (h.upgrade.keep ?_) (hflag.raise rfl) ⟨nofun, fun _ => hno⟩ nofun
  rw [upgrades, upgrades, hup]
  rfl

theorem core_addRead (hroom : s.readers.length + 1 < readLimit)
    (hw : ∀ u, u ≠ t → (s.threads u).writer = false) : Core (s.addRead t) := by
  refine ⟨?_, hroom, h.upgrade, h.write, h.once, ?_, h.depth, h.level, h.bound⟩
  · show (s.readCount + 1) % readLimit = _
    rw [h.readCount, Nat.mod_eq_of_lt hroom]
    rfl
  · intro u v hu hv
    by_cases hut : u = t
    · subst hut
      rcases hv with hv | hv
      · rcases mem_cons.mp hv with hv | hv
        · exact hv
        · exact h.excl u v hu (.inl hv)
      · exact h.excl u v hu (.inr hv)
    · have hf : (s.threads u).writer = true := hu
      rw [hw u hut] at hf
      cases hf

theorem core_dropRead (hmem : t ∈ s.readers) : Core (s.dropRead t) := by
  have hlen := length_erase_of_mem hmem
  have hpos := length_pos_of_mem hmem
  have hroom := h.room
  refine ⟨?_, ?_, h.upgrade, h.write, h.once, ?_, h.depth, h.level, h.bound⟩
  · show (if s.readCount = 0 then _ else s.readCount - 1) = (s.readers.erase t).length
    rw [h.readCount, hlen, if_neg (Nat.pos_iff_ne_zero.mp hpos)]
  · show (s.readers.erase t).length < readLimit
    omega
  · intro u v hu hv
    exact h.excl u v hu (hv.imp_left mem_of_mem_erase)

theorem core_grantWrite {b : Bool} (hpc : (s.threads t).pc = .wait .writeWait b)
    (hr : s.readCount = 0) (hup : s.wantUpgrade = false) :
    Core (s.put t { s.threads t with pc := .out, write := true }) := by
  have hwr : (s.threads t).writes = true := by
    rw [writes, hpc]
    rfl
  have ha := h.alone_of_free hr hup hwr
  have hno : (s.threads t).writer = false := by
    have hf := (hup ▸ h.upgrade).eq_false t
    rw [upgrades, or_eq_false_iff] at hf
    rw [writer, hf.2, (h.once t).2 (by rw [hpc]; rfl)]
    rfl
  -- so far nobody writes, and there is no recursion
  have hzero : s.recursionDepth = 0 := by
    by_contra hne
    obtain ⟨u, hu⟩ := h.level hne
    by_cases hut : u = t
    · rw [hut, hno] at hu
      cases hu
    · rw [ha.writer hut] at hu
      cases hu
  have hdepth := h.depth t
  rw [hno] at hdepth
  refine h.put_alone ha (h.upgrade.keep ?_) (h.write.keep ?_) ⟨nofun, nofun⟩ ?_ ?_ h.bound
  · rw [upgrades, upgrades, hpc]
    rfl
  · rw [hwr]
    rfl
  · rw [hzero]
    exact hdepth.trans (if_pos rfl).symm
  · intro hd
    exact absurd hzero hd

theorem core_grantUpgrade {b : Bool} (hpc : (s.threads t).pc = .wait .upgradeWait b)
    (hr : s.readCount = 0) :
    Core (s.put t { s.threads t with pc := .out, upgrade := true }) := by
  have hup : (s.threads t).upgrades = true := by
    rw [upgrades, hpc]
    rfl
  have ha := h.alone_of_upgrade hr hup
  have hwriter : { s.threads t with pc := .out, upgrade := true : Thread }.writer = true :=
    or_true _
  refine h.put_alone ha (h.upgrade.keep ?_) (h.write.keep ?_)
    ⟨nofun, nofun⟩ ?_ (fun _ => hwriter) h.bound
  · rw [hup]
    exact or_true _
  · rw [writes, writes, hpc]
    rfl
  rw [hwriter]
  show (s.threads t).depth = s.recursionDepth
  rw [h.depth t]
  split
  · rfl
  next hno =>
    -- a thread that did not write was not there to take the lock recursively
    by_contra hne
    obtain ⟨u, hu⟩ := h.level (Ne.symm hne)
    by_cases hut : u = t
    · exact hno (hut ▸ hu)
    · rw [ha.writer hut] at hu
      cases hu

theorem core_recurse (hw : (s.threads t).writer = true)
    (hbound : s.recursionDepth + 1 < depthLimit) : Core (s.recurse t) := by
  have hdepth := h.depth t
  rw [hw, if_pos rfl] at hdepth
  unfold State.recurse
  rw [Nat.mod_eq_of_lt hbound]
  refine h.put_alone (h.alone hw) (h.upgrade.keep rfl) (h.write.keep rfl) (h.once t) ?_
    (fun _ => hw) hbound
  show (s.threads t).depth + 1 = if (s.threads t).writer = true then _ else 0
  rw [hdepth, hw, if_pos rfl]

theorem core_release (hpc : (s.threads t).pc = .out)
    (hw : (s.threads t).writer = true) : Core (s.clearWrite.put t (s.threads t).release) := by
  have ha := h.alone hw
  have hdepth := h.depth t
  rw [hw, if_pos rfl] at hdepth
  have hups : (s.threads t).upgrades = (s.threads t).upgrade := by
    rw [upgrades, hpc]
    rfl
  have hwrs : (s.threads t).writes = (s.threads t).write := by
    rw [writes, hpc]
    rfl
  have honce : ∀ x : Thread, x.pc = .out → x.Once := by
    intro x hx
    refine ⟨?_, ?_⟩ <;> intro hp <;> rw [hx] at hp <;> cases hp
  -- the upgrade flag belongs to the writer, if it is up
  have hflag : s.wantUpgrade = (s.threads t).upgrade := by
    rw [Bool.eq_iff_iff]
    constructor
    · intro hup
      obtain ⟨u, hu⟩ := h.upgrade.owned hup
      rwa [h.excl t u hw (.inr (concerned_of_upgrades hu)), hups] at hu
    · intro hup
      exact h.upgrade.raised t (hups.trans hup)
  rw [State.clearWrite, release]
  by_cases hd : s.recursionDepth ≠ 0
  · rw [if_pos hd, if_pos (hdepth ▸ hd)]
    refine h.put_alone ha (h.upgrade.keep rfl) (h.write.keep rfl) (honce _ hpc) ?_ (fun _ => hw) ?_
    · show (s.threads t).depth - 1 = if (s.threads t).writer = true then _ else 0
      rw [hw, if_pos rfl, hdepth]
    · have hb := h.bound
      omega
  · have hzero : s.recursionDepth = 0 := not_not.mp hd
    have hd' : ¬ (s.threads t).depth ≠ 0 := hdepth ▸ hd
    by_cases hup : (s.threads t).upgrade = true
    · rw [if_neg hd, if_neg hd', if_pos (hflag.trans hup), if_pos hup]
      refine h.put_alone ha (h.upgrade.drop (hups.trans hup) ?_) (h.write.keep rfl) (honce _ hpc)
        ?_ (absurd hzero) h.bound
      · rw [hpc]
        rfl
      · rw [hzero, ite_self]
        exact hdepth.trans hzero
    · have hwrite : (s.threads t).write = true := by
        rw [writer, Bool.eq_false_iff.mpr hup, Bool.or_false] at hw
        exact hw
      have hup' : ¬ s.wantUpgrade = true := hflag ▸ hup
      rw [if_neg hd, if_neg hd', if_neg hup', if_neg hup]
      refine h.put_alone ha (h.upgrade.keep rfl) (h.write.drop (hwrs.trans hwrite) ?_)
        (honce _ hpc) ?_ (absurd hzero) h.bound
      · rw [hpc]
        rfl
      · rw [hzero, ite_self]
        exact hdepth.trans hzero

end

end Mach.Kern.RwLock
