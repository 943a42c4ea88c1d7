import Mach.Kern.RwLockInv

/-!
# Runs of a readers/writer lock

Every call keeps the invariant as long as the counters have room. The counters do not check it:
with `2 ^ 16` read holds `read_count` is zero again, and the lock is given to a writer.
-/

namespace Mach.Kern.RwLock

open Mach.Lib Function List Option State Nat Thread

variable {T : Type}

/-! ## Sleepers -/

def State.Blocked (s : State T) : Loop → Prop
  | .writeWant => s.wantWrite = true
  | .writeWait => s.readCount ≠ 0 ∨ s.wantUpgrade = true
  | .readWait => s.wantWrite = true ∨ s.wantUpgrade = true
  | .upgradeWait => s.readCount ≠ 0

def Sleep (s : State T) : Prop :=
  ∀ t l, (s.threads t).pc = .wait l true → s.waiting = true ∧ s.Blocked l

structure Inv (s : State T) : Prop extends Core s where
  sleep : Sleep s

variable {s s' : State T} {t u : T}

theorem Sleep.mono (h : Sleep s) (hw : s'.waiting = s.waiting)
    (hpc : ∀ u l, (s'.threads u).pc = .wait l true → (s.threads u).pc = .wait l true)
    (hb : ∀ l, s.Blocked l → s'.Blocked l) : Sleep s' := by
  intro u l hu
  obtain ⟨hwait, hblocked⟩ := h u l (hpc u l hu)
  exact ⟨hw.trans hwait, hb l hblocked⟩

theorem wake_ne (p : Pc) (l : Loop) : p.wake ≠ .wait l true := by
  intro h
  cases p <;> cases h

theorem sleep_wakeup (h : ∀ t l, (s.threads t).pc = .wait l true → s.waiting = true) :
    Sleep s.wakeup := by
  unfold wakeup
  split
  · intro t l ht
    exact absurd ht (wake_ne _ l)
  next hno =>
    intro t l ht
    exact absurd (h t l ht) hno

theorem blocked_mono (hu : s.wantUpgrade = true → s'.wantUpgrade = true)
    (hw : s.wantWrite = true → s'.wantWrite = true) (hr : s.readCount ≠ 0 → s'.readCount ≠ 0)
    (l : Loop) (h : s.Blocked l) : s'.Blocked l := by
  cases l with
  | writeWant => exact hw h
  | writeWait => exact h.imp hr hu
  | readWait => exact h.imp hw hu
  | upgradeWait => exact hr h

theorem Core.no_writer (h : Core s) (hw : s.wantWrite = false) (hu : s.wantUpgrade = false)
    (u : T) : (s.threads u).writer = false := by
  have hwr := (hw ▸ h.write).eq_false u
  have hup := (hu ▸ h.upgrade).eq_false u
  rw [writes, Bool.or_eq_false_iff] at hwr
  rw [upgrades, Bool.or_eq_false_iff] at hup
  rw [writer, hwr.2, hup.2]
  rfl

theorem Core.mem_readers (h : Core s) (hh : s.Holds t) (hr : s.readCount ≠ 0) : t ∈ s.readers := by
  rcases hh with hmem | hw
  · exact hmem
  · rw [h.readCount] at hr
    obtain ⟨u, hu⟩ := exists_mem_of_length_pos (Nat.pos_of_ne_zero hr)
    exact h.excl t u hw (.inl hu) ▸ hu

theorem clearWrite_fields (s : State T) : s.clearWrite.readCount = s.readCount ∧
    s.clearWrite.readers = s.readers ∧ s.clearWrite.threads = s.threads ∧ s.clearWrite.waiting = s.waiting := by
  unfold clearWrite
  split_ifs <;> exact ⟨rfl, rfl, rfl, rfl⟩

theorem release_pc (x : Thread) : x.release.pc = x.pc := by
  unfold release
  split_ifs <;> rfl

theorem wakeup_holds (s : State T) (t : T) : s.wakeup.Holds t ↔ s.Holds t := by
  unfold wakeup
  split <;> rfl

theorem inv_thread (h : Inv s) (thread : Option T) : Inv { s with thread := thread } :=
  ⟨⟨h.readCount, h.room, h.upgrade, h.write, h.once, h.excl, h.depth, h.level, h.bound⟩,
    h.sleep.mono rfl (fun _ _ hl => hl) (blocked_mono id id id)⟩

theorem inv_fresh (h : Fresh s) : Inv s := by
  have hup : ∀ t, (s.threads t).upgrades = false := by
    intro t
    rw [h.threads t]
    rfl
  have hwr : ∀ t, (s.threads t).writes = false := by
    intro t
    rw [h.threads t]
    rfl
  have hw : ∀ t, (s.threads t).writer = false := by
    intro t
    rw [h.threads t]
    rfl
  have down : ∀ {f : Thread → Bool}, (∀ t, f (s.threads t) = false) → Flag false f s.threads := by
    intro f hf
    refine ⟨nofun, ?_, ?_⟩
    · intro t ht
      rw [hf t] at ht
      cases ht
    · intro t _ ht
      rw [hf t] at ht
      cases ht
  refine ⟨⟨?_, ?_, h.wantUpgrade ▸ down hup, h.wantWrite ▸ down hwr, ?_, ?_, ?_, ?_, ?_⟩, ?_⟩
  · rw [h.readCount, h.readers]
    rfl
  · rw [h.readers]
    exact zero_lt_succ _
  · intro t
    rw [h.threads t]
    exact ⟨fun _ => rfl, fun _ => rfl⟩
  · intro t _ ht
    rw [hw t] at ht
    cases ht
  · intro t
    rw [h.threads t]
    rfl
  · intro hd
    exact absurd h.recursionDepth hd
  · rw [h.recursionDepth]
    exact zero_lt_succ _
  · intro t l ht
    rw [h.threads t] at ht
    cases ht

/-! ## What the invariant says -/

theorem Inv.wakes (h : Inv s) {l : Loop} (ht : (s.threads t).pc = .wait l true) :
    (∃ u, s.Holds u) ∨ (∃ u, (s.threads u).pc.upgrading = true) ∨
      ∃ u, (s.threads u).pc = .wait .writeWait false ∧ s.readCount = 0 ∧ s.wantUpgrade = false := by
  by_cases hup : s.wantUpgrade = true
  · obtain ⟨u, hu⟩ := h.upgrade.owned hup
    rw [upgrades, Bool.or_eq_true] at hu
    rcases hu with hu | hu
    · exact .inr (.inl ⟨u, hu⟩)
    · exact .inl ⟨u, .inr (by rw [writer, hu, Bool.or_true])⟩
  by_cases hr : s.readCount = 0
  · -- only the writer flag is left to wait for
    have hwant : s.wantWrite = true := by
      have hb := (h.sleep t l ht).2
      cases l with
      | writeWant => exact hb
      | writeWait => exact absurd hb (not_or.mpr ⟨not_not.mpr hr, hup⟩)
      | readWait => exact hb.resolve_right hup
      | upgradeWait => exact absurd hr hb
    obtain ⟨u, hu⟩ := h.write.owned hwant
    rw [writes, Bool.or_eq_true] at hu
    rcases hu with hu | hu
    · refine .inr (.inr ⟨u, ?_, hr, Bool.eq_false_iff.mpr hup⟩)
      cases hpc : (s.threads u).pc with
      | out =>
        rw [hpc] at hu
        cases hu
      | wait l' b =>
        rw [hpc] at hu
        cases l' with
        | writeWait =>
          cases b with
          | false => rfl
          | true => exact absurd (h.sleep u _ hpc).2 (not_or.mpr ⟨not_not.mpr hr, hup⟩)
        | _ => cases hu
    · exact .inl ⟨u, .inr (by rw [writer, hu, Bool.true_or])⟩
  · rw [h.readCount] at hr
    obtain ⟨u, hu⟩ := exists_mem_of_length_pos (Nat.pos_of_ne_zero hr)
    exact .inl ⟨u, .inl hu⟩

theorem Inv.excludes (h : Inv s) : Excludes s := by
  refine ⟨?_, h.readCount, h.upgrade.unique, ?_⟩
  · intro t u ht hu
    exact h.excl t u ht (hu.imp_right concerned_of_writer)
  intro t ht
  cases hpc : (s.threads t).pc with
  | out =>
    rw [hpc] at ht
    cases ht
  | wait l b =>
    rw [hpc] at ht
    cases b with
    | true => exact h.wakes hpc
    | false => cases ht

/-! ## Steps of one thread -/

variable [DecidableEq T]

theorem pc_goto (s : State T) (t : T) (pc : Pc) : ((s.goto t pc).threads t).pc = pc := by
  show (update s.threads t _ t).pc = pc
  rw [update_self]

theorem awake_put {x : Thread} (hx : ∀ l, x.pc ≠ .wait l true) :
    ∀ u l, ((s.put t x).threads u).pc = .wait l true → (s.threads u).pc = .wait l true := by
  show ∀ u l, (update s.threads t x u).pc = _ → _
  exact update_cases (fun l hl => absurd hl (hx l)) fun _ _ _ hl => hl

theorem awake_goto {l : Loop} : ∀ u l', ((s.goto t (.wait l false)).threads u).pc = .wait l' true →
    (s.threads u).pc = .wait l' true :=
  awake_put nofun

theorem testWriteWait_goto (s : State T) (t : T) (pc : Pc) (spin : Bool) :
    testWriteWait (s.goto t pc) t spin = testWriteWait s t spin := by
  unfold testWriteWait pause State.goto put
  simp

theorem testUpgrade_goto (s : State T) (t : T) (pc : Pc) (spin : Bool) :
    testUpgrade (s.goto t pc) t spin = testUpgrade s t spin := by
  unfold testUpgrade pause State.goto put
  simp

section

variable (h : Inv s)
include h

theorem Inv.put_awake {x : Thread} (hc : Core (s.put t x)) (hx : ∀ l, x.pc ≠ .wait l true) :
    Inv (s.put t x) :=
  ⟨hc, h.sleep.mono rfl (awake_put hx) (blocked_mono id id id)⟩

theorem inv_pause (spin : Bool) {l : Loop}
    (hup : (Pc.wait l false).upgrading = (s.threads t).pc.upgrading)
    (hwr : (Pc.wait l false).writing = (s.threads t).pc.writing) (hb : s.Blocked l) :
    Inv (s.pause t spin l) := by
  have core : ∀ (b w : Bool), Core ({ s with waiting := w }.goto t (.wait l b)) := by
    intro b w
    have hup' : (Pc.wait l b).upgrading = (s.threads t).pc.upgrading := hup ▸ (by cases l <;> rfl)
    have hwr' : (Pc.wait l b).writing = (s.threads t).pc.writing := hwr ▸ (by cases l <;> rfl)
    refine h.goto (h.upgrade.keep ?_) (h.write.keep ?_) ?_ ?_
    · rw [upgrades, upgrades, hup']
    · rw [writes, writes, hwr']
    · rw [Thread.Once, hup', hwr']
      exact h.once t
    · intro hu u hne
      rw [hup'] at hu
      refine Bool.eq_false_iff.mpr ?_
      intro hw
      refine hne (h.excl u t hw (.inr (concerned_of_upgrades ?_))).symm
      rw [upgrades, hu, Bool.true_or]
  unfold pause
  split
  · exact h.put_awake (core false s.waiting) fun l' hl => by cases hl
  refine ⟨core true true, ?_⟩
  show ∀ u l', (update s.threads t _ u).pc = .wait l' true → _
  refine update_cases (fun l' hl => ?_) fun u _ l' hl => ⟨rfl, (h.sleep u l' hl).2⟩
  cases hl
  exact ⟨rfl, hb⟩

/-! ## The loops -/

theorem inv_testWriteWait (spin : Bool) {b : Bool} (hpc : (s.threads t).pc = .wait .writeWait b) :
    Inv (testWriteWait s t spin) := by
  unfold testWriteWait
  split
  next hb => exact inv_pause h spin (by rw [hpc]; rfl) (by rw [hpc]; rfl) hb
  next hb =>
    rw [not_or, not_not, Bool.not_eq_true] at hb
    exact h.put_awake (core_grantWrite h.toCore hpc hb.1 hb.2) nofun

theorem inv_raiseWrite (hup : (s.threads t).pc.upgrading = false) (hwr : s.wantWrite = false) :
    Inv ({ s with wantWrite := true }.goto t (.wait .writeWait false)) := by
  refine ⟨core_raiseWrite h.toCore hup hwr, h.sleep.mono rfl ?_ ?_⟩
  · exact awake_goto
  · exact blocked_mono id (fun _ => rfl) id

theorem inv_addRead (hroom : s.readers.length + 1 < readLimit)
    (hw : ∀ u, u ≠ t → (s.threads u).writer = false) : Inv (s.addRead t) := by
  have hcore := core_addRead h.toCore hroom hw
  refine ⟨hcore, h.sleep.mono rfl (fun _ _ hl => hl) (blocked_mono id id ?_)⟩
  intro _
  rw [hcore.readCount]
  exact succ_ne_zero _

section

variable (spin : Bool) (hup : (s.threads t).pc.upgrading = false) (hw : (s.threads t).pc.writing = false)
include spin hup hw

theorem inv_testWriteWant : Inv (testWriteWant s t spin) := by
  unfold testWriteWant
  split
  next hwr => exact inv_pause h spin hup.symm hw.symm hwr
  next hwr =>
    rw [← testWriteWait_goto _ t (.wait .writeWait false)]
    exact inv_testWriteWait (inv_raiseWrite h hup (Bool.eq_false_iff.mpr hwr)) spin (pc_goto _ t _)

theorem inv_testRead
    (hroom : ¬ (s.wantWrite = true ∨ s.wantUpgrade = true) → s.readers.length + 1 < readLimit) :
    Inv (testRead s t spin) := by
  unfold testRead
  split
  next hb => exact inv_pause h spin hup.symm hw.symm hb
  next hb =>
    have hread := hroom hb
    rw [not_or, Bool.not_eq_true, Bool.not_eq_true] at hb
    have hinv := inv_addRead (t := t) h hread fun u _ => h.no_writer hb.1 hb.2 u
    refine hinv.put_awake (hinv.goto (hinv.upgrade.keep ?_) (hinv.write.keep ?_) ?_ ?_)
      fun l hl => by cases hl
    · show ((Pc.out).upgrading || (s.threads t).upgrade) = _
      rw [upgrades, show ((s.addRead t).threads t).pc = (s.threads t).pc from rfl, hup]
      rfl
    · show ((Pc.out).writing || (s.threads t).write) = _
      rw [writes, show ((s.addRead t).threads t).pc = (s.threads t).pc from rfl, hw]
      rfl
    · exact ⟨Bool.noConfusion, Bool.noConfusion⟩
    · exact Bool.noConfusion

end

theorem inv_testUpgrade (spin : Bool) {b : Bool} (hpc : (s.threads t).pc = .wait .upgradeWait b) :
    Inv (testUpgrade s t spin) := by
  unfold testUpgrade
  split
  next hb => exact inv_pause h spin (by rw [hpc]; rfl) (by rw [hpc]; rfl) hb
  next hb =>
    exact h.put_awake (core_grantUpgrade h.toCore hpc (not_not.mp hb)) nofun

theorem inv_dropRead (hmem : t ∈ s.readers) :
    Inv (if (s.dropRead t).readCount = 0 then (s.dropRead t).wakeup else s.dropRead t) := by
  have hcore := core_dropRead h.toCore hmem
  split
  · exact ⟨core_wakeup hcore, sleep_wakeup fun u l hu => (h.sleep u l hu).1⟩
  next hr =>
    exact ⟨hcore, h.sleep.mono rfl (fun _ _ hl => hl) (blocked_mono id id fun _ => hr)⟩

theorem inv_lockRead (spin : Bool) (hpc : (s.threads t).pc = .out)
    (hrec : s.thread = some t → (s.threads t).writer = true)
    (hroom : s.thread = some t ∨ ¬ (s.wantWrite = true ∨ s.wantUpgrade = true) →
      s.readers.length + 1 < readLimit) : Inv (lockRead s t spin) := by
  unfold lockRead
  split
  next ht =>
    exact inv_addRead h (hroom (.inl ht)) fun u hu => (h.alone (hrec ht)).writer hu
  · exact inv_testRead h spin (by rw [hpc]; rfl) (by rw [hpc]; rfl) fun hb => hroom (.inr hb)

theorem inv_lockTryRead (hrec : s.thread = some t → (s.threads t).writer = true)
    (hroom : s.thread = some t ∨ ¬ (s.wantWrite = true ∨ s.wantUpgrade = true) →
      s.readers.length + 1 < readLimit) : Inv (lockTryRead s t).2 := by
  unfold lockTryRead
  split
  next ht =>
    exact inv_addRead h (hroom (.inl ht)) fun u hu => (h.alone (hrec ht)).writer hu
  · split
    · exact h
    next hb =>
      have hread := hroom (.inr hb)
      rw [not_or, Bool.not_eq_true, Bool.not_eq_true] at hb
      exact inv_addRead h hread fun u _ => h.no_writer hb.1 hb.2 u

section

variable (hpc : (s.threads t).pc = .out)
include hpc

theorem inv_raiseUpgrade (hup : s.wantUpgrade = false) (hmem : t ∈ s.readers) :
    Inv (({ s with wantUpgrade := true }.dropRead t).goto t (.wait .upgradeWait false)) := by
  refine ⟨core_dropRead (core_raiseUpgrade h.toCore hpc hup hmem) hmem, ?_⟩
  intro u l hu
  have hold : (s.threads u).pc = .wait l true := awake_goto u l hu
  obtain ⟨hwait, hblocked⟩ := h.sleep u l hold
  refine ⟨hwait, ?_⟩
  cases l with
  | writeWant => exact hblocked
  | writeWait => exact .inr rfl
  | readWait => exact .inr rfl
  | upgradeWait =>
    have hf := (hup ▸ h.upgrade).eq_false u
    rw [upgrades, hold] at hf
    cases hf

omit hpc in
theorem inv_upgrade (spin : Bool) (hpc : (s.threads t).pc = .out) (hup : s.wantUpgrade = false)
    (hmem : t ∈ s.readers) :
    Inv (testUpgrade ({ s with wantUpgrade := true }.dropRead t) t spin) := by
  rw [← testUpgrade_goto _ t (.wait .upgradeWait false)]
  exact inv_testUpgrade (inv_raiseUpgrade h hpc hup hmem) spin (pc_goto _ t _)

/-! ## The calls -/

theorem inv_recurse (hw : (s.threads t).writer = true) (hbound : s.recursionDepth + 1 < depthLimit) :
    Inv (s.recurse t) := by
  refine ⟨core_recurse h.toCore hw hbound, h.sleep.mono rfl ?_ (blocked_mono id id id)⟩
  refine awake_put ?_
  intro l hl
  rw [show (s.threads t).pc = .wait l true from hl] at hpc
  cases hpc

theorem inv_dropRead_writer (hw : (s.threads t).writer = true) (hmem : t ∈ s.readers) :
    Inv (s.dropRead t) := by
  have hcore := core_dropRead h.toCore hmem
  refine ⟨hcore, ?_⟩
  intro u l hu
  have hold : (s.threads u).pc = .wait l true := hu
  obtain ⟨hwait, hblocked⟩ := h.sleep u l hold
  have hne : u ≠ t := by
    intro hut
    rw [hut, hpc] at hold
    cases hold
  refine ⟨hwait, ?_⟩
  cases l with
  | writeWant => exact hblocked
  | readWait => exact hblocked
  | writeWait =>
    -- the writer flag is not the writer's, so the writer has been upgraded
    refine .inr (h.upgrade.raised t ?_)
    rw [writer, Bool.or_eq_true] at hw
    rcases hw with hw | hg
    · refine absurd (h.write.unique u t ?_ ?_) hne
      · rw [writes, hold]
        rfl
      · rw [writes, hw, Bool.or_true]
    · rw [upgrades, hg, Bool.or_true]
  | upgradeWait =>
    refine absurd (h.excl t u hw (.inr (concerned_of_upgrades ?_))) hne
    rw [upgrades, hold]
    rfl

omit hpc in
theorem inv_lockWrite (spin : Bool) (hpc : (s.threads t).pc = .out)
    (hrec : s.thread = some t → (s.threads t).writer = true ∧ s.recursionDepth + 1 < depthLimit) :
    Inv (lockWrite s t spin) := by
  unfold lockWrite
  split
  next ht => exact inv_recurse h hpc (hrec ht).1 (hrec ht).2
  · exact inv_testWriteWant h spin (by rw [hpc]; rfl) (by rw [hpc]; rfl)

theorem inv_lockTryWrite
    (hrec : s.thread = some t → (s.threads t).writer = true ∧ s.recursionDepth + 1 < depthLimit) :
    Inv (lockTryWrite s t).2 := by
  unfold lockTryWrite
  split
  next ht => exact inv_recurse h hpc (hrec ht).1 (hrec ht).2
  · split
    · exact h
    next hb =>
      simp only [not_or, Bool.not_eq_true, not_not] at hb
      obtain ⟨hw, hup, hr⟩ := hb
      -- the writer flag is raised, and there is nothing to wait for
      have hinv := inv_testWriteWait (inv_raiseWrite h (by rw [hpc]; rfl) hw) true (pc_goto _ t _)
      rw [testWriteWait_goto, testWriteWait, if_neg (by simp [hr, hup])] at hinv
      rwa [← hpc] at hinv

omit hpc in
theorem inv_lockReadToWrite (spin : Bool) (hpc : (s.threads t).pc = .out) (hmem : t ∈ s.readers)
    (hrec : s.thread = some t → (s.threads t).writer = true ∧ s.recursionDepth + 1 < depthLimit) :
    Inv (lockReadToWrite s t spin).2 := by
  unfold lockReadToWrite
  dsimp only
  split
  next ht =>
    exact inv_recurse (inv_dropRead_writer h hpc (hrec ht).1 hmem) hpc (hrec ht).1 (hrec ht).2
  · split
    · exact inv_dropRead h hmem
    next hup => exact inv_upgrade h spin hpc (Bool.eq_false_iff.mpr hup) hmem

theorem inv_lockTryReadToWrite (hmem : t ∈ s.readers)
    (hrec : s.thread = some t → (s.threads t).writer = true ∧ s.recursionDepth + 1 < depthLimit) :
    Inv (lockTryReadToWrite s t).2 := by
  unfold lockTryReadToWrite
  split
  next ht =>
    exact inv_recurse (inv_dropRead_writer h hpc (hrec ht).1 hmem) hpc (hrec ht).1 (hrec ht).2
  · split
    · exact h
    next hup => exact inv_upgrade h false hpc (Bool.eq_false_iff.mpr hup) hmem

theorem inv_release (hw : (s.threads t).writer = true) :
    Inv (s.clearWrite.put t (s.threads t).release).wakeup := by
  refine ⟨core_wakeup (core_release h.toCore hpc hw), sleep_wakeup ?_⟩
  intro u l hu
  have hold := awake_put ?_ u l hu
  · rw [(clearWrite_fields s).2.2.1] at hold
    exact (clearWrite_fields s).2.2.2.trans (h.sleep u l hold).1
  intro l' hl
  rw [release_pc, hpc] at hl
  cases hl

theorem inv_lockDone (hh : s.Holds t) : Inv (lockDone s t) := by
  unfold lockDone
  by_cases hr : s.readCount ≠ 0
  · have hmem := h.mem_readers hh hr
    have hdrop : { s.released t with readCount := s.readCount - 1 } = s.dropRead t := by
      rw [released, if_pos hmem, dropRead, if_neg hr]
    rw [if_pos hr, hdrop]
    exact inv_dropRead h hmem
  · have hzero : s.readCount = 0 := not_not.mp hr
    have hno : t ∉ s.readers := by
      rw [h.readers_eq_nil hzero]
      exact not_mem_nil
    have hrel : s.clearWrite.released t = s.clearWrite.put t (s.threads t).release := by
      rw [released, (clearWrite_fields s).2.1, if_neg hno, (clearWrite_fields s).2.2.1]
    have hcount : (s.clearWrite.put t (s.threads t).release).readCount = 0 :=
      (clearWrite_fields s).1.trans hzero
    rw [if_neg hr, hrel, if_pos hcount]
    exact inv_release h hpc (hh.resolve_left hno)

theorem inv_lockWriteToRead (hw : (s.threads t).writer = true)
    (hroom : s.readers.length + 1 < readLimit) :
    Inv (lockWriteToRead s t) :=
  inv_release (inv_addRead h hroom fun _ hu => (h.alone hw).writer hu) hpc hw

theorem inv_call {c : Call} (hent : s.entitled t c = true)
    (hrec : s.thread = some t → c.recursive = true → (s.threads t).writer = true)
    (hwide : Wide s (.call t c)) : Inv (s.call t c) := by
  -- a read hold is given to a recursive writer, or while no flag is up
  have hgives : (decide (s.thread = some t) || !(s.wantWrite || s.wantUpgrade)) = true ↔
      s.thread = some t ∨ ¬ (s.wantWrite = true ∨ s.wantUpgrade = true) := by
    rw [Bool.or_eq_true, decide_eq_true_iff, Bool.not_eq_true', Bool.or_eq_false_iff, not_or,
      Bool.not_eq_true, Bool.not_eq_true]
  cases c with
  | write spin =>
    exact inv_lockWrite h spin hpc fun ht => ⟨hrec ht rfl, hwide.depth (decide_eq_true ht)⟩
  | read spin =>
    exact inv_lockRead h spin hpc (fun ht => hrec ht rfl) fun hg => hwide.read (hgives.mpr hg)
  | done => exact inv_lockDone h hpc (of_decide_eq_true hent)
  | readToWrite spin =>
    exact inv_lockReadToWrite h spin hpc (of_decide_eq_true hent) fun ht =>
      ⟨hrec ht rfl, hwide.depth (decide_eq_true ht)⟩
  | writeToRead => exact inv_lockWriteToRead h hpc hent (hwide.read rfl)
  | tryWrite =>
    exact inv_lockTryWrite h hpc fun ht => ⟨hrec ht rfl, hwide.depth (decide_eq_true ht)⟩
  | tryRead =>
    exact inv_lockTryRead h (fun ht => hrec ht rfl) fun hg => hwide.read (hgives.mpr hg)
  | tryReadToWrite =>
    exact inv_lockTryReadToWrite h hpc (of_decide_eq_true hent) fun ht =>
      ⟨hrec ht rfl, hwide.depth (decide_eq_true ht)⟩
  | setRecursive => exact inv_thread h (some t)
  | clearRecursive =>
    show Inv (lockClearRecursive s)
    unfold lockClearRecursive
    split
    · exact inv_thread h none
    · exact h

end

theorem inv_lookAgain {spin : Bool} (hwide : Wide s (.again t spin))
    (hs : lookAgain s t spin = some s') : Inv s' := by
  unfold lookAgain at hs
  split at hs
  next hpc =>
    cases hs
    exact inv_testWriteWant h spin (by rw [hpc]; rfl) (by rw [hpc]; rfl)
  next hpc =>
    cases hs
    exact inv_testWriteWait h spin hpc
  next hpc =>
    cases hs
    refine inv_testRead h spin (by rw [hpc]; rfl) (by rw [hpc]; rfl) ?_
    intro hb
    apply hwide.read
    rw [givesRead, hpc, decide_eq_true rfl, Bool.true_and, Bool.not_eq_true', Bool.or_eq_false_iff]
    rwa [not_or, Bool.not_eq_true, Bool.not_eq_true] at hb
  next hpc =>
    cases hs
    exact inv_testUpgrade h spin hpc
  · cases hs

theorem inv_step {a : Action T} (hwide : Wide s a) (hs : step s a = some s') : Inv s' := by
  cases a with
  | call t c =>
    simp only [step] at hs
    split at hs
    next hg =>
      cases hs
      exact inv_call h hg.1 hg.2.1 hg.2.2 hwide
    · cases hs
  | again t spin => exact inv_lookAgain h hwide hs

/-! ## Runs -/

theorem Inv.failsUpgrade {spin : Bool} (hs : (step s (.call t (.readToWrite spin))).isSome = true)
    (hwide : Wide s (.call t (.readToWrite spin))) : FailsUpgrade s t spin := by
  rintro ⟨u, hne, hu⟩
  have hup := h.upgrade.raised u hu
  have hno : (s.threads t).writer = false :=
    Bool.eq_false_iff.mpr fun hw => hne (h.excl t u hw (.inr (concerned_of_upgrades hu)))
  have hguard : t ∈ s.readers ∧ s.thread ≠ some t := by
    simp only [step, isSome_ite] at hs
    refine ⟨of_decide_eq_true hs.2.1, ?_⟩
    intro ht
    rw [hs.2.2 ht rfl] at hno
    cases hno
  -- the read hold that is given up is the only one
  have hcount : s.readers.count t = 1 := by
    have hsingle := hwide.single
    have hpos := count_pos_iff.mpr hguard.1
    rw [leavesRead, hup, decide_eq_true hguard.2, Bool.true_and, Bool.true_and,
      decide_eq_false_iff_not] at hsingle
    omega
  have hgone : ¬ (s.dropRead t).Holds t := by
    rintro (hmem | hw)
    · have hz := count_pos_iff.mpr hmem
      rw [show (s.dropRead t).readers = s.readers.erase t from rfl, count_erase_self, hcount] at hz
      cases hz
    · rw [show ((s.dropRead t).threads t).writer = (s.threads t).writer from rfl, hno] at hw
      cases hw
  have heq : lockReadToWrite s t spin = (true, if (s.dropRead t).readCount = 0
      then (s.dropRead t).wakeup else s.dropRead t) := by
    unfold lockReadToWrite
    rw [if_neg (show (s.dropRead t).thread ≠ some t from hguard.2),
      if_pos (show (s.dropRead t).wantUpgrade = true from hup)]
  refine ⟨?_, by rw [heq], ?_⟩
  · unfold lockTryReadToWrite
    rw [if_neg hguard.2, if_pos hup]
  rw [heq]
  split
  · rwa [wakeup_holds]
  · exact hgone

end

/-- **Readers/writer locks exclude and wake**: in every run in which the counters have room and
no reader with several read holds fails to upgrade one, a hold for writing excludes the holds of
other threads, the readers are counted, at most one of the readers that ask for an upgrade gets
it and the others are left with nothing, and nobody sleeps on a lock that is free. -/
theorem lock_excludes_and_wakes (h : system.Reach Wide s) :
    Excludes s ∧ ∀ t spin, (step s (.call t (.readToWrite spin))).isSome = true →
      Wide s (.call t (.readToWrite spin)) → FailsUpgrade s t spin := by
  have hinv : Inv s := Lts.Reach.inv (I := Inv) (fun _ h0 => inv_fresh h0)
    (fun _ _ _ hi hw hs => inv_step hi hw hs) h
  exact ⟨hinv.excludes, fun _ _ hs hw => hinv.failsUpgrade hs hw⟩

/-- The lock as `lock_init` leaves it. -/
def fresh : State T := ⟨none, 0, false, false, false, 0, fun _ => ⟨.out, false, false, 0⟩, []⟩

theorem fresh_init : system.init (fresh : State T) :=
  ⟨rfl, rfl, rfl, rfl, rfl, rfl, fun _ => rfl, rfl⟩

def upgradeRace : List (Action (Fin 3)) :=
  [.call 0 (.read false), .call 1 (.read false), .call 2 (.write false),
    .call 0 (.readToWrite false), .call 1 (.readToWrite true), .again 0 false, .again 2 false]

theorem upgradeRace_runs : (system.run fresh upgradeRace).isSome := by decide

theorem upgradeRace_excludes : ∃ s, system.run fresh upgradeRace = some s ∧
    (s.threads 0).writer = true ∧ (s.threads 2).pc = .wait .writeWait true ∧ Excludes s := by
  refine ⟨(system.run fresh upgradeRace).get upgradeRace_runs, (some_get _).symm,
    by decide, by decide, ?_⟩
  exact (lock_excludes_and_wakes (Lts.Reach.run upgradeRace (.start fresh_init) (by decide)
    (some_get upgradeRace_runs).symm)).1

/-! ## Counters that wrap -/

def reads (n : Nat) : State Nat :=
  { fresh with readCount := n % readLimit, readers := (List.range n).reverse }

theorem step_reads (n : Nat) : step (reads n) (.call n .tryRead) = some (reads (n + 1)) := by
  have hread : (reads n).addRead n = reads (n + 1) := by
    unfold reads addRead
    rw [range_succ, reverse_append, mod_add_mod]
    rfl
  rw [← hread]
  rfl

theorem reach_reads (n : Nat) : system.Reach anyStep (reads n) := by
  induction n with
  | zero => exact .start fresh_init
  | succ n ih => exact .next (a := .call n .tryRead) ih trivial (step_reads n)

theorem writes_over_reads {n : Nat} (hpos : 0 < n) (hwrap : n % readLimit = 0) :
    ∃ s : State Nat, system.Reach anyStep s ∧
      ∃ t u, (s.threads t).writer = true ∧ s.Holds u ∧ u ≠ t := by
  have htry : (lockTryWrite (reads n) n).2 =
      { reads n with wantWrite := true }.put n ⟨.out, true, false, 0⟩ := by
    have hfree : ¬ ((reads n).wantWrite = true ∨ (reads n).wantUpgrade = true ∨
        (reads n).readCount ≠ 0) := by
      rw [reads, hwrap]
      simp [fresh]
    rw [lockTryWrite, if_neg hfree]
    rfl
  have hs : step (reads n) (.call n .tryWrite) = some (lockTryWrite (reads n) n).2 := rfl
  refine ⟨_, .next (a := .call n .tryWrite) (reach_reads n) trivial hs, n, 0, ?_, .inl ?_,
    Nat.ne_of_lt hpos⟩
  · rw [htry]
    show (update (reads n).threads n _ n).writer = true
    rw [update_self]
    rfl
  · rw [htry]
    exact mem_reverse.mpr (mem_range.mpr hpos)

def levels (n : Nat) : State Nat :=
  { (fresh : State Nat) with
    thread := some 0, wantWrite := true, recursionDepth := n % depthLimit
    threads := update (fun _ => ⟨.out, false, false, 0⟩) 0 ⟨.out, true, false, n⟩ }

theorem step_levels (n : Nat) : step (levels n) (.call 0 .tryWrite) = some (levels (n + 1)) := by
  have hrec : (levels n).recurse 0 = levels (n + 1) := by
    unfold levels recurse put
    rw [mod_add_mod, update_idem]
    rfl
  rw [← hrec]
  rfl

theorem reach_levels (n : Nat) : system.Reach anyStep (levels n) := by
  induction n with
  | zero =>
    refine .next (.next (.start fresh_init) trivial (a := .call 0 .tryWrite) rfl) trivial
      (a := .call 0 .setRecursive) ?_
    rfl
  | succ n ih => exact .next (a := .call 0 .tryWrite) ih trivial (step_levels n)

def nestedUpgrade : List (Action Nat) :=
  [.call 0 (.read false), .call 0 (.read false), .call 1 (.read false),
    .call 1 (.readToWrite false)]

theorem nestedUpgrade_runs : (system.run fresh nestedUpgrade).isSome := by decide

/-- The writer of a lock with `2 ^ 12` levels of recursion gives up one of them, and another
thread tries to take the lock. -/
def wrappedRelease : List (Action Nat) := [.call 0 .done, .call 1 .tryWrite]

theorem wrappedRelease_runs : (system.run (levels depthLimit) wrappedRelease).isSome := by
  decide

/-- With `2 ^ 16` read holds the lock is given to a writer; with `2 ^ 12` levels of recursion a
release lets a second writer in; and a reader that fails to upgrade one of two read holds still
holds the lock. -/
theorem lock_shared : (∃ s : State Nat, system.Reach anyStep s ∧
      ∃ t u, (s.threads t).writer = true ∧ s.Holds u ∧ u ≠ t) ∧
    (∃ s : State Nat, system.Reach anyStep s ∧
      ∃ t u, (s.threads t).write = true ∧ (s.threads u).write = true ∧ u ≠ t) ∧
    ∃ s : State Nat, system.run fresh nestedUpgrade = some s ∧
      (step s (.call 0 (.readToWrite false))).isSome = true ∧ (lockReadToWrite s 0 false).1 = true ∧
      (lockReadToWrite s 0 false).2.Holds 0 := by
  exact ⟨writes_over_reads (Nat.zero_lt_succ _) (Nat.mod_self readLimit),
    ⟨(system.run (levels depthLimit) wrappedRelease).get wrappedRelease_runs,
      .run wrappedRelease (reach_levels depthLimit) (system.okRun_any _ _) (some_get _).symm,
      0, 1, by decide, by decide, Nat.one_ne_zero⟩,
    (system.run fresh nestedUpgrade).get nestedUpgrade_runs, (some_get _).symm,
    by decide, by decide, by decide⟩

end Mach.Kern.RwLock
