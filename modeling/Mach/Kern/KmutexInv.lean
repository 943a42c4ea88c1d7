import Mathlib.Data.List.Nodup
import Mach.Kern.Kmutex

/-!
# A mutex without stranded waiters

`Ok s t` is an assertion for each place in the code that the thread `t` may be at, and
`Inv` has besides them what ties the word to the owner that is not written down: the word is
available just when nobody owns the mutex, and it is contended whenever a thread sleeps.

A step of one thread brings it to a place whose assertion holds, and disturbs no assertion of
another thread (`Ok.frame`): only the owner can make a contended word available, under the
inner lock and with an empty queue.
-/

namespace Mach.Kern.Kmutex

open Mach.Lib Function List Option

variable {T : Type}

/-- What holds of the thread `t` at a place in the code. -/
def OkAt (s : State T) (t : T) : Pc → Prop
  | .out => t ∉ s.queue ∧ s.inner ≠ some t
  | .lockEnter _ => t ∉ s.queue ∧ s.inner ≠ some t ∧ s.owns t = s.relock t
  | .lockSwap _ => t ∉ s.queue ∧ s.inner = some t ∧ s.owns t = s.relock t
  | .lockLeave => t ∉ s.queue ∧ s.inner = some t ∧ s.owns t = true
  | .lockSleep _ => t ∉ s.queue ∧ s.inner = some t ∧ s.owns t = s.relock t ∧ s.word = .contended
  | .asserted _ => s.inner = some t ∧ s.owns t = s.relock t ∧
      (t ∉ s.queue → s.waitResult t = .interrupted)
  | .blocked _ => s.inner ≠ some t ∧ (t ∈ s.queue → s.owns t = s.relock t) ∧
      (t ∉ s.queue → s.waitResult t = .interrupted ∧ s.owns t = s.relock t ∨
        s.waitResult t = .awakened ∧ s.owns t = true)
  | .unlockEnter => t ∉ s.queue ∧ s.inner ≠ some t ∧ s.owns t = true ∧ s.word = .contended
  | .unlockWake => t ∉ s.queue ∧ s.inner = some t ∧ s.owns t = true ∧ s.word = .contended
  | .unlockReset => t ∉ s.queue ∧ s.inner = some t ∧ s.owns t = true ∧ s.word = .contended ∧
      s.queue = []
  | .unlockLeave => t ∉ s.queue ∧ s.inner = some t

def Ok (s : State T) (t : T) : Prop := OkAt s t (s.pc t)

structure Inv (s : State T) : Prop where
  ok : ∀ t, Ok s t
  exclusive : ∀ t u, s.owns t = true → s.owns u = true → t = u
  avail : s.word = .avail ↔ ∀ t, s.owns t = false
  contended : s.queue ≠ [] → s.word = .contended
  nodup : s.queue.Nodup

variable {s s' : State T} {t u : T}

/-! ## Frames -/

structure Undisturbed (s s' : State T) (u : T) : Prop where
  pc : s'.pc u = s.pc u
  owns : s'.owns u = s.owns u
  relock : s'.relock u = s.relock u
  waitResult : s'.waitResult u = s.waitResult u
  queue : u ∈ s'.queue ↔ u ∈ s.queue
  inner : s'.inner = some u ↔ s.inner = some u
  word : s.word = .contended → s.owns u = true ∨ s.inner = some u → s'.word = .contended
  empty : s.queue = [] → s.inner = some u → s'.queue = []

variable {p : Pc}

theorem OkAt.frame (h : OkAt s u p) (hu : Undisturbed s s' u) : OkAt s' u p := by
  obtain ⟨-, howns, hrelock, hwait, hqueue, hinner, hword, hempty⟩ := hu
  cases p with
  | lockSleep i =>
    simp only [OkAt, howns, hrelock, hqueue, hinner] at h ⊢
    exact ⟨h.1, h.2.1, h.2.2.1, hword h.2.2.2 (.inr h.2.1)⟩
  | unlockEnter =>
    simp only [OkAt, howns, hqueue, hinner, Ne] at h ⊢
    exact ⟨h.1, h.2.1, h.2.2.1, hword h.2.2.2 (.inl h.2.2.1)⟩
  | unlockWake =>
    simp only [OkAt, howns, hqueue, hinner] at h ⊢
    exact ⟨h.1, h.2.1, h.2.2.1, hword h.2.2.2 (.inl h.2.2.1)⟩
  | unlockReset =>
    simp only [OkAt, howns, hqueue, hinner] at h ⊢
    exact ⟨h.1, h.2.1, h.2.2.1, hword h.2.2.2.1 (.inl h.2.2.1), hempty h.2.2.2.2 h.2.1⟩
  | _ =>
    simp only [OkAt, howns, hrelock, hwait, hqueue, hinner, Ne] at h ⊢
    exact h

theorem Ok.frame (h : Ok s u) (hu : Undisturbed s s' u) : Ok s' u := by
  have hframe := OkAt.frame h hu
  rwa [← hu.pc] at hframe

theorem ok_of_step (h : ∀ u, Ok s u) (ht : Ok s' t) (hu : ∀ u, u ≠ t → Undisturbed s s' u) :
    ∀ u, Ok s' u := by
  intro u
  by_cases hut : u = t
  · exact hut ▸ ht
  · exact (h u).frame (hu u hut)

theorem Inv.at (h : Inv s) (hpc : s.pc t = p) : OkAt s t p := hpc ▸ h.ok t

theorem inner_ne (hin : s.inner = some t) (hu : u ≠ t) : s.inner ≠ some u := by
  rw [hin]
  exact fun he => hu (some_inj.mp he).symm

theorem Inv.queue_eq_nil (h : Inv s) (hw : s.word ≠ .contended) : s.queue = [] := by
  by_contra hne
  exact hw (h.contended hne)

theorem avail_iff_of_owner {w : Word} {owns : T → Bool} (hw : w ≠ .avail) (ht : owns t = true) :
    w = .avail ↔ ∀ u, owns u = false := by
  constructor
  · intro h
    exact absurd h hw
  · intro h
    rw [h t] at ht
    cases ht

theorem okAt_woken (h : Inv s) (hin : s.inner = some t) (hu : u ≠ t) (hmem : u ∈ s.queue)
    (hgone : u ∉ s'.queue) (hpc : s'.pc u = s.pc u) (hinner : s'.inner = s.inner)
    (hres : s'.waitResult u = .awakened) (hown : s'.owns u = true) : Ok s' u := by
  have hok := h.ok u
  unfold Ok at hok ⊢
  rw [hpc]
  cases hs : s.pc u with
  | blocked i =>
    refine ⟨?_, fun hm => absurd hm hgone, fun _ => .inr ⟨hres, hown⟩⟩
    rw [hinner]
    exact inner_ne hin hu
  | asserted i =>
    rw [hs] at hok
    exact absurd hok.1 (inner_ne hin hu)
  | _ =>
    rw [hs] at hok
    exact absurd hmem hok.1

theorem ok_asleep (h : Ok s t) (hs : (s.pc t).asleep = true) (hq : t ∉ s.queue) :
    s.waitResult t = .interrupted ∧ s.owns t = s.relock t ∨
      s.waitResult t = .awakened ∧ s.owns t = true := by
  unfold Ok at h
  cases hpc : s.pc t with
  | asserted i =>
    rw [hpc] at h
    exact .inl ⟨h.2.2 hq, h.2.1⟩
  | blocked i =>
    rw [hpc] at h
    exact h.2.2 hq
  | _ =>
    rw [hpc] at hs
    cases hs

theorem inv_fresh (h : Fresh s) : Inv s := by
  refine ⟨?_, ?_, ⟨fun _ => h.owns, fun _ => h.word⟩, absurd h.queue, ?_⟩
  · intro t
    unfold Ok
    rw [h.pc t, OkAt, h.queue, h.inner]
    exact ⟨not_mem_nil, nofun⟩
  · intro t u ht
    rw [h.owns t] at ht
    cases ht
  · rw [h.queue]
    exact nodup_nil

variable [DecidableEq T]

theorem ok_goto (h : OkAt s t p) : Ok (s.goto t p) t := by
  unfold Ok State.goto
  dsimp only
  rw [update_self]
  cases p <;> exact h

theorem exclusive_update {owns : T → Bool} (h : ∀ t, owns t = false) (u v : T)
    (hu : update owns t true u = true) (hv : update owns t true v = true) :
    u = v := by
  have key : ∀ w, update owns t true w = true → w = t := by
    intro w hw
    by_contra hne
    rw [update_of_ne hne, h w] at hw
    cases hw
  rw [key u hu, key v hv]

theorem goto_self (s : State T) (hpc : s.pc t = p) : s.goto t p = s := by
  unfold State.goto
  rw [← hpc, update_eq_self]

section

variable (h : Inv s)
include h

theorem inv_goto (hok : OkAt s t p) : Inv (s.goto t p) := by
  refine ⟨ok_of_step h.ok (ok_goto hok) ?_, h.exclusive, h.avail, h.contended, h.nodup⟩
  intro u hu
  exact ⟨update_of_ne hu .., rfl, rfl, rfl, .rfl, .rfl, fun hc _ => hc, fun hq _ => hq⟩

/-! ## Owners -/

theorem owns_update_false (ht : s.owns t = true) (u : T) : update s.owns t false u = false := by
  refine update_cases rfl (fun u hu => ?_) u
  exact Bool.eq_false_iff.mpr fun hown => hu (h.exclusive u t hown ht)

theorem inv_release (ht : s.owns t = true) (hempty : s.queue = [])
    (hother : s.word = .contended → ∀ u, u ≠ t → s.inner ≠ some u)
    (hok : OkAt ({ s with word := .avail }.own t false) t p) :
    Inv (({ s with word := .avail }.own t false).goto t p) := by
  have hnone := owns_update_false h ht
  refine ⟨ok_of_step h.ok (ok_goto hok) ?_, ?_, ⟨fun _ => hnone, fun _ => rfl⟩,
    (absurd hempty), h.nodup⟩
  · intro u hu
    refine ⟨update_of_ne hu .., update_of_ne hu .., rfl, rfl, .rfl, .rfl, ?_, fun hq _ => hq⟩
    rintro hc (hown | hin)
    · exact absurd (h.exclusive u t hown ht) hu
    · exact absurd hin (hother hc u hu)
  · intro u v hu
    have hfalse : update s.owns t false u = true := hu
    rw [hnone u] at hfalse
    cases hfalse

theorem inv_acquire (hav : s.word = .avail) {w : Word} (hw : w ≠ .avail)
    (hok : OkAt ({ s with word := w }.own t true) t p) :
    Inv (({ s with word := w }.own t true).goto t p) := by
  have hno := h.avail.mp hav
  have hempty : s.queue = [] := h.queue_eq_nil (by rw [hav]; exact nofun)
  refine ⟨ok_of_step h.ok (ok_goto hok) ?_, exclusive_update hno, ?_, (absurd hempty), h.nodup⟩
  · intro u hu
    refine ⟨update_of_ne hu .., update_of_ne hu .., rfl, rfl, .rfl, .rfl, ?_, fun hq _ => hq⟩
    intro hc
    rw [hav] at hc
    cases hc
  · exact avail_iff_of_owner hw (update_self t ..)

/-! ## The calls -/

section

variable (hpc : s.pc t = .out)
include hpc

theorem inv_casAcquire {fail : Pc} (hfail : OkAt s t fail) : Inv (casAcquire s t fail) := by
  unfold casAcquire
  split
  next hav =>
    have hinv := inv_acquire (p := .out) h hav (w := .locked) nofun (h.at hpc)
    exact goto_self ({ s with word := .locked }.own t true) hpc ▸ hinv
  · exact inv_goto h hfail

theorem inv_kmutexLock (i : Bool) : Inv (kmutexLock s t i) := by
  have hout := h.at hpc
  -- what `relock` is does not matter to a thread that is not in a call
  have hinv : Inv { s with relock := update s.relock t (s.owns t) } := by
    refine ⟨ok_of_step (t := t) h.ok ?_ ?_, h.exclusive, h.avail, h.contended, h.nodup⟩
    · unfold Ok
      rw [hpc]
      exact hout
    · intro u hu
      exact ⟨rfl, rfl, update_of_ne hu .., rfl, .rfl, .rfl, fun hc _ => hc, fun hq _ => hq⟩
  exact inv_casAcquire hinv hpc ⟨hout.1, hout.2, (update_self t (s.owns t) s.relock).symm⟩

theorem inv_kmutexTrylock : Inv (kmutexTrylock s t) :=
  inv_casAcquire h hpc (h.at hpc)

theorem inv_kmutexUnlock (ht : s.owns t = true) : Inv (kmutexUnlock s t) := by
  have hout := h.at hpc
  unfold kmutexUnlock
  split
  next hl =>
    have hne : s.word ≠ .contended := by
      rw [hl]
      exact nofun
    have hinv := inv_release (p := .out) h ht (h.queue_eq_nil hne) (fun hc => absurd hc hne) hout
    exact goto_self ({ s with word := .avail }.own t false) hpc ▸ hinv
  next hl =>
    have hcont : s.word = .contended := by
      cases hw : s.word with
      | avail =>
        rw [h.avail.mp hw t] at ht
        cases ht
      | locked => exact absurd hw hl
      | contended => rfl
    exact inv_goto h ⟨hout.1, hout.2, ht, hcont⟩

end

/-! ## Under the inner lock -/

theorem inv_inner {inner : Option T} (hfree : s.inner = none ∨ s.inner = some t)
    (hnew : inner = none ∨ inner = some t) (hok : OkAt { s with inner := inner } t p) :
    Inv ({ s with inner := inner }.goto t p) := by
  refine ⟨ok_of_step h.ok (ok_goto hok) ?_, h.exclusive, h.avail, h.contended, h.nodup⟩
  intro u hu
  have hne : some t ≠ some u := fun he => hu (some_inj.mp he).symm
  refine ⟨update_of_ne hu .., rfl, rfl, rfl, .rfl, ?_, fun hc _ => hc, fun hq _ => hq⟩
  show inner = some u ↔ s.inner = some u
  rcases hfree with hf | hf <;> rcases hnew with hn | hn <;> rw [hf, hn] <;> simp [hne]

theorem inv_lockSwap {i : Bool} (hpc : s.pc t = .lockSwap i) :
    Inv (if s.word = .avail then ({ s with word := .contended }.own t true).goto t .lockLeave
      else { s with word := .contended }.goto t (.lockSleep i)) := by
  obtain ⟨hq, hin, how⟩ := h.at hpc
  split
  next hav =>
    exact inv_acquire h hav nofun ⟨hq, hin, update_self t ..⟩
  next hav =>
    refine ⟨ok_of_step h.ok (ok_goto ⟨hq, hin, how, rfl⟩) ?_, h.exclusive, ?_, fun _ => rfl,
      h.nodup⟩
    · intro u hu
      exact ⟨update_of_ne hu .., rfl, rfl, rfl, .rfl, .rfl, fun _ _ => rfl, fun hq _ => hq⟩
    · -- the word was not that of an available mutex, so it has an owner
      exact ⟨nofun, fun hno => absurd (h.avail.mpr hno) hav⟩

theorem inv_lockSleep {i : Bool} (hpc : s.pc t = .lockSleep i) :
    Inv ({ s with queue := s.queue ++ [t] }.goto t (.asserted i)) := by
  obtain ⟨hq, hin, how, hw⟩ := h.at hpc
  have hmem : t ∈ s.queue ++ [t] := mem_append_right _ mem_cons_self
  refine ⟨ok_of_step h.ok (ok_goto ⟨hin, how, absurd hmem⟩) ?_, h.exclusive,
    h.avail, fun _ => hw, ?_⟩
  · intro u hu
    refine ⟨update_of_ne hu .., rfl, rfl, rfl, ?_, .rfl, fun hc _ => hc, ?_⟩
    · show u ∈ s.queue ++ [t] ↔ _
      rw [mem_append, mem_singleton]
      exact ⟨fun hm => hm.resolve_right hu, .inl⟩
    · intro _ hin'
      exact absurd hin' (inner_ne hin hu)
  · show (s.queue ++ [t]).Nodup
    rw [nodup_append]
    refine ⟨h.nodup, nodup_singleton t, ?_⟩
    intro a ha b hb hab
    exact hq (mem_singleton.mp hb ▸ hab ▸ ha)

theorem inv_wakeupOne (hpc : s.pc t = .unlockWake) : Inv (wakeupOne s t) := by
  obtain ⟨hq, hin, ht, hw⟩ := h.at hpc
  unfold wakeupOne
  split
  next hempty => exact inv_goto h ⟨hq, hin, ht, hw, hempty⟩
  next v queue hqueue =>
    rw [hqueue, mem_cons, not_or] at hq
    have hnd := h.nodup
    rw [hqueue, nodup_cons] at hnd
    have hvt : v ≠ t := Ne.symm hq.1
    have hnone := owns_update_false h ht
    refine ⟨?_, exclusive_update hnone, ?_, fun _ => hw, hnd.2⟩
    · intro u
      by_cases hut : u = t
      · subst hut
        exact ok_goto ⟨hq.2, hin⟩
      · by_cases huv : u = v
        · subst huv
          exact okAt_woken h hin hut (hqueue ▸ mem_cons_self) hnd.1
            (update_of_ne hut ..) rfl (update_self ..) (update_self ..)
        · refine (h.ok u).frame ⟨update_of_ne hut .., ?_, rfl, update_of_ne huv ..,
            ?_, .rfl, fun hc _ => hc, ?_⟩
          · show update (update s.owns t false) v true u = _
            rw [update_of_ne huv, update_of_ne hut]
          · show u ∈ queue ↔ _
            rw [hqueue, mem_cons]
            exact ⟨.inr, fun hm => hm.resolve_left huv⟩
          · intro he
            rw [hqueue] at he
            cases he
    · have hne : s.word ≠ .avail := by
        rw [hw]
        exact nofun
      exact avail_iff_of_owner hne (update_self v ..)

theorem inv_interrupt (hs : interrupt s t = some s') : Inv s' := by
  obtain ⟨hc, ⟨⟩⟩ := ite_none_right_eq_some.mp hs
  obtain ⟨hmem, -⟩ := hc
  have hnot : t ∉ s.queue.erase t := fun hm => (h.nodup.mem_erase_iff.mp hm).1 rfl
  have hnil : s.queue = [] → s.queue.erase t = [] := by
    intro he
    rw [he]
    rfl
  refine ⟨ok_of_step (t := t) h.ok ?_ ?_, h.exclusive, h.avail, ?_, h.nodup.erase t⟩
  · have hok := h.ok t
    unfold Ok at hok ⊢
    cases hpc : s.pc t with
    | asserted i =>
      rw [hpc] at hok
      exact ⟨hok.1, hok.2.1, fun _ => update_self ..⟩
    | blocked i =>
      rw [hpc] at hok
      exact ⟨hok.1, fun hm => absurd hm hnot, fun _ => .inl ⟨update_self .., hok.2.1 hmem⟩⟩
    | _ =>
      rw [hpc] at hok
      exact absurd hmem hok.1
  · intro u hu
    exact ⟨rfl, rfl, rfl, update_of_ne hu .., mem_erase_of_ne hu, .rfl,
      fun hc _ => hc, fun he _ => hnil he⟩
  · intro hne
    exact h.contended fun he => hne (hnil he)

/-! ## Every run -/

theorem inv_go (hs : go s t = some s') : Inv s' := by
  unfold go at hs
  generalize hpc : s.pc t = p at hs
  cases p with
  | out =>
    cases hs
  | lockEnter i =>
    obtain ⟨hq, -, how⟩ := h.at hpc
    dsimp only at hs
    split at hs
    next hfree =>
      cases hs
      exact inv_inner h (.inl (by simpa using hfree)) (.inr rfl) ⟨hq, rfl, how⟩
    · cases hs
  | lockSwap i =>
    have hinv := inv_lockSwap h hpc
    dsimp only at hs
    split at hs
    next hav =>
      cases hs
      rwa [if_pos hav] at hinv
    next hav =>
      cases hs
      rwa [if_neg hav] at hinv
  | lockLeave =>
    obtain ⟨hq, hin, -⟩ := h.at hpc
    cases hs
    exact inv_inner h (.inr hin) (.inl rfl) ⟨hq, nofun⟩
  | lockSleep i =>
    cases hs
    exact inv_lockSleep h hpc
  | asserted i =>
    obtain ⟨hin, how, hint⟩ := h.at hpc
    cases hs
    exact inv_inner h (.inr hin) (.inl rfl) ⟨nofun, fun _ => how, fun hn => .inl ⟨hint hn, how⟩⟩
  | blocked i =>
    obtain ⟨hin, -, -⟩ := h.at hpc
    dsimp only at hs
    split at hs
    · cases hs
    next hnot =>
      cases hs
      exact inv_goto h ⟨hnot, hin⟩
  | unlockEnter =>
    obtain ⟨hq, -, ht, hw⟩ := h.at hpc
    dsimp only at hs
    split at hs
    next hfree =>
      cases hs
      exact inv_inner h (.inl (by simpa using hfree)) (.inr rfl) ⟨hq, rfl, ht, hw⟩
    · cases hs
  | unlockWake =>
    cases hs
    exact inv_wakeupOne h hpc
  | unlockReset =>
    obtain ⟨hq, hin, ht, -, hempty⟩ := h.at hpc
    cases hs
    exact inv_release h ht hempty (fun _ u hu => inner_ne hin hu) ⟨hq, hin⟩
  | unlockLeave =>
    obtain ⟨hq, hin⟩ := h.at hpc
    cases hs
    exact inv_inner h (.inr hin) (.inl rfl) ⟨hq, nofun⟩

end

theorem inv_reach (h : (system (T := T)).Reach anyStep s) : Inv s := by
  refine Lts.Reach.inv ?_ ?_ h
  · intro s hs
    exact inv_fresh hs
  intro s a s' hinv _ hstep
  cases a with
  | lock t i =>
    obtain ⟨hpc, ⟨⟩⟩ := ite_none_right_eq_some.mp hstep
    exact inv_kmutexLock hinv hpc i
  | trylock t =>
    obtain ⟨hpc, ⟨⟩⟩ := ite_none_right_eq_some.mp hstep
    exact inv_kmutexTrylock hinv hpc
  | unlock t =>
    obtain ⟨hpc, ⟨⟩⟩ := ite_none_right_eq_some.mp hstep
    exact inv_kmutexUnlock hinv hpc.1 hpc.2
  | go t => exact inv_go hinv hstep
  | interrupt t => exact inv_interrupt hinv hstep

/-- **A mutex without stranded waiters**, in every run of any number of threads. -/
theorem kmutex_is_mutex (h : (system (T := T)).Reach anyStep s) : Mutex s := by
  have hinv := inv_reach h
  refine ⟨hinv.exclusive, ?_, ?_, ?_⟩
  · rintro t ⟨hs, hq, hr⟩
    rcases ok_asleep (hinv.ok t) hs hq with ⟨hi, -⟩ | ⟨-, hown⟩
    · rw [hr] at hi
      cases hi
    · exact hown
  · rintro t ⟨hs, hq, hr⟩ hre
    rcases ok_asleep (hinv.ok t) hs hq with ⟨-, hown⟩ | ⟨ha, -⟩
    · rw [hown, hre]
    · rw [hr] at ha
      cases ha
  · intro t ht
    have hw := hinv.contended (ne_nil_of_mem ht)
    refine .inl ⟨?_, hw⟩
    -- a contended mutex is not available, so it has an owner
    by_contra hno
    have hav := hinv.avail.mpr fun u => Bool.eq_false_iff.mpr fun hu => hno ⟨u, hu⟩
    rw [hw] at hav
    cases hav

def freshState : State Nat where
  word := .avail
  inner := none
  queue := []
  pc := fun _ => .out
  waitResult := fun _ => .awakened
  owns := fun _ => false
  relock := fun _ => false

def handOver : List (Action Nat) :=
  [.lock 0 false, .lock 1 true, .go 1, .go 1, .go 1, .go 1, .lock 2 false, .go 2, .go 2, .go 2,
    .go 2, .unlock 0, .interrupt 1, .go 0, .go 0]

theorem fresh_freshState : Fresh freshState := ⟨rfl, rfl, rfl, fun _ => rfl, fun _ => rfl⟩

theorem handOver_runs : (system.run freshState handOver).isSome := by decide

theorem handOver_mutex : ∃ s, system.run freshState handOver = some s ∧
    s.owns 2 = true ∧ s.Handed 2 ∧ s.Interrupted 1 ∧ s.word = .contended ∧ Mutex s := by
  refine ⟨(system.run freshState handOver).get handOver_runs, (some_get _).symm,
    by decide, ⟨by decide, by decide, by decide⟩,
    ⟨by decide, by decide, by decide⟩, by decide, ?_⟩
  exact kmutex_is_mutex (Lts.reach_get fresh_freshState handOver_runs)

end Mach.Kern.Kmutex
