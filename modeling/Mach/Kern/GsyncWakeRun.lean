import Mach.Kern.GsyncWakeInv

/-!
# Runs of waits and wake-ups

The steps of `gsync_wait` and `gsync_wake` one by one. Only one of them asks for more than the
invariant: when `gsync_wake` calls `clear_wait`, the waiter has to wait still. A waiter whose
wait has been ended by a timeout is in the queue until it gets the lock, and a wake-up that is
spent on it wakes nobody.
-/

namespace Mach.Kern.GsyncWake

open Mach.Lib Function List Option

variable {T V : Type} {s s' : State T V} {t u : T} {p q : Pc T V}

theorem Inv.not_at (h : Inv s) (ht : Holds s.pc s.wait t) (hu : u ≠ t) (hpc : s.pc u = p)
    (hin : p.inside = true) (hno : p.enters = false) : False := by
  refine h.lock.not_holds ht hu ⟨by rw [hpc, hin], fun hw => ?_⟩
  have he := h.lock.enters u hw
  rw [hpc, hno] at he
  cases he

theorem Inv.at (h : Inv s) (hpc : s.pc t = p) : OkAt s t p := hpc ▸ h.ok t

theorem not_woken (hpc : s.pc t = p) (hp : p.waits = false) : ¬ s.Woken t := by
  intro hw
  rw [State.Woken, hpc, hp] at hw
  cases hw.1

theorem not_woken_of_waits (hwait : s.wait u = .gsync) : ¬ s.Woken u := by
  rintro ⟨-, hn, -⟩
  rw [hwait] at hn
  cases hn

theorem awake_congr (hwait : s'.wait u = s.wait u) (hresult : s'.result u = s.result u) :
    s'.Awake u ↔ s.Awake u := by
  rw [State.Awake, State.Awake, hwait, hresult]

theorem woken_congr (hpc : s'.pc u = s.pc u) (h : s'.Awake u ↔ s.Awake u) :
    s'.Woken u ↔ s.Woken u := by
  rw [State.Woken, hpc]
  exact and_congr_right fun _ => h

theorem woken_iff_of_not (h : ¬ s.Woken t) (h' : ¬ s'.Woken t) : s'.Woken t ↔ s.Woken t :=
  ⟨fun hw => absurd hw h', fun hw => absurd hw h⟩

theorem Inv.not_woken_of_mem (h : Inv s) (hmem : u ∈ s.queue) : ¬ s.Woken u := by
  have hok := (h.ok u).here
  rintro ⟨hwaits, hawake⟩
  cases hp : s.pc u with
  | waitQueued timed =>
    rw [hp] at hok
    exact hok.2 hawake
  | waitBlocked timed =>
    rw [hp] at hok
    exact hok.2 hmem hawake
  | _ =>
    rw [hp] at hwaits
    cases hwaits

theorem Inv.place_of_mem (h : Inv s) (ht : Holds s.pc s.wait t) (hut : u ≠ t) (hmem : u ∈ s.queue) :
    (∃ timed, s.pc u = .waitBlocked timed) ∨ s.pc u = .leaveEnter ∨ s.pc u = .leaveLocked := by
  have hlisted := (h.ok u).listed hmem
  cases hp : s.pc u with
  | waitQueued timed => exact (h.not_at ht hut hp rfl rfl).elim
  | waitBlocked timed => exact .inl ⟨timed, rfl⟩
  | leaveEnter => exact .inr (.inl rfl)
  | leaveLocked => exact .inr (.inr rfl)
  | _ =>
    rw [hp] at hlisted
    cases hlisted

theorem Inv.apart (h : Inv s) (hpc : s.pc t = p) (hw : p.waits = false) (hl : p.listed = false) :
    s.wait t ≠ .gsync ∧ t ∉ s.queue := by
  have hok := h.at hpc
  constructor
  · intro he
    have hp := hok.gsync he
    rw [hw] at hp
    cases hp
  · intro hm
    have hp := hok.listed hm
    rw [hl] at hp
    cases hp

theorem Inv.not_asleep (h : Inv s) (hpc : s.pc t = .out) : s.wait t ≠ .mutex := by
  intro hw
  have he := h.lock.enters t hw
  rw [hpc] at he
  cases he

theorem inv_fresh (h : Fresh s) : Inv s := by
  have hpc : ∀ t, s.pc t = .out := h.pc
  have hnone : ∀ t, ¬ Holds s.pc s.wait t := by
    intro t ht
    rw [Holds, hpc t] at ht
    cases ht.1
  have hmutex : ∀ t, s.wait t ≠ .mutex := by
    intro t
    rw [h.wait t]
    decide
  have hgsync : ∀ t, s.wait t ≠ .gsync := by
    intro t
    rw [h.wait t]
    decide
  have hnd : s.queue.Nodup := h.queue ▸ nodup_nil
  refine ⟨⟨⟨fun _ => hnone, fun _ => h.lock⟩, fun t _ ht => absurd ht (hnone t), ?_,
    h.sleepers ▸ nodup_nil, fun t ht => absurd ht (hmutex t),
    (absurd h.sleepers)⟩, ?_, hnd, [], nodup_nil, ?_, ?_⟩
  · intro t
    rw [h.sleepers]
    exact ⟨fun hm => absurd hm not_mem_nil, fun ht => absurd ht (hmutex t)⟩
  · intro t
    rw [Ok, hpc t]
    exact ⟨fun ht => absurd ht (hgsync t), fun hm => absurd (h.queue ▸ hm) not_mem_nil, trivial⟩
  · intro t
    exact ⟨fun hm => absurd hm not_mem_nil, fun hw => absurd hw (not_woken (hpc t) rfl)⟩
  · rw [h.dequeued, h.succeeded]
    exact List.Perm.refl []

theorem Inv.matched (h : Inv s) : Matched s := by
  refine ⟨fun t e timed hpc => (h.at hpc).here, ?_, h.books, fun t b hpc => (h.at hpc).here,
    fun t b hpc => (h.at hpc).here⟩
  intro t hw
  have hwaits := (h.ok t).gsync hw
  cases hpc : s.pc t with
  | waitQueued timed => exact .inl (h.at hpc).here.1
  | waitBlocked timed => exact (h.at hpc).here.1 hw
  | _ =>
    rw [hpc] at hwaits
    cases hwaits

def Pc.waiter : Pc T V → Option T
  | .wakeClear _ u => some u
  | _ => none

theorem stillWaits_go {slow fault : Bool} :
    StillWaits s (.go t slow fault) ↔ ∀ u ∈ (s.pc t).waiter, s.wait u = .gsync := by
  constructor
  · intro h u hu
    cases hpc : s.pc t with
    | wakeClear b v =>
      rw [hpc] at hu
      cases hu
      exact h b _ hpc
    | _ =>
      rw [hpc] at hu
      cases hu
  · intro h b u hpc
    exact h u (by rw [hpc]; rfl)

instance (s : State T V) : ∀ a, Decidable (StillWaits s a)
  | .go _ _ _ => decidable_of_iff _ stillWaits_go.symm
  | .callWait .. | .callWake .. | .store .. | .timeout .. | .interrupt .. => .isTrue trivial

variable [DecidableEq T]

theorem pc_goto (s : State T V) (t : T) (p : Pc T V) : (s.goto t p).pc t = p := update_self ..

theorem woken_goto (p : Pc T V) (hu : u ≠ t) : (s.goto t p).Woken u ↔ s.Woken u :=
  woken_congr (update_of_ne hu ..) .rfl

theorem woken_goto_iff (hpc : s.pc t = q) (hq : q.waits = false) (hp : p.waits = false) (u : T) :
    (s.goto t p).Woken u ↔ s.Woken u := by
  by_cases hu : u = t
  · subst hu
    exact woken_iff_of_not (not_woken hpc hq) (not_woken (pc_goto _ u p) hp)
  · exact woken_goto p hu

theorem update_eq_iff {β : Type} {f : T → β} {x b : β} (ht : f t ≠ b) (hx : x ≠ b) (u : T) :
    update f t x u = b ↔ f u = b :=
  update_cases (iff_of_false hx ht) (fun _ _ => .rfl) u

theorem inv_of_step (hpc : s'.pc = update s.pc t p)
    (hlock : LockInv s'.pc s'.wait s'.lock s'.sleepers) (hok : OkAt s' t p)
    (hothers : ∀ u, u ≠ t → Ok s' u) (hnd : s'.queue.Nodup) (hbooks : Books s') : Inv s' := by
  refine ⟨hlock, ?_, hnd, hbooks⟩
  intro u
  by_cases hu : u = t
  · subst hu
    unfold Ok
    rw [hpc, update_self]
    exact hok
  · exact hothers u hu

theorem cleared_update (hpc : s'.pc = update s.pc t p)
    (hclear : (s.pc t).waiter = none) (h : s.Cleared u) : s'.Cleared u := by
  obtain ⟨x, b, hx⟩ := h
  refine ⟨x, b, ?_⟩
  rw [hpc, update_of_ne, hx]
  rintro rfl
  rw [hx] at hclear
  cases hclear

theorem quiet_of_holds (h : Inv s) (ht : Holds s.pc s.wait t) (hu : u ≠ t)
    (hpc : s'.pc = update s.pc t p) (hqueue : u ∈ s'.queue ↔ u ∈ s.queue)
    (hwait : s'.wait u = s.wait u) (hresult : s'.result u = s.result u)
    (hspent : s'.spent u = s.spent u) (hclear : s.Cleared u → s'.Cleared u) : Quiet s s' u := by
  refine ⟨by rw [hpc, update_of_ne hu], hqueue, by rw [hwait],
    fun _ => awake_congr hwait hresult, hspent, ?_, hclear, ?_⟩
  · intro e timed hp
    exact (h.not_at ht hu hp rfl rfl).elim
  · intro b v hp
    exact (h.not_at ht hu hp rfl rfl).elim

/-! ## Steps that move one thread -/

structure Move (s s' : State T V) (t : T) (p : Pc T V) : Prop where
  pc : s'.pc = update s.pc t p
  lock : LockInv s'.pc s'.wait s'.lock s'.sleepers
  queue : s'.queue = s.queue
  gsync : ∀ u, u ≠ t → (s'.wait u = .gsync ↔ s.wait u = .gsync)
  awake : ∀ u, u ≠ t → (s.pc u).waits = true → (s'.Awake u ↔ s.Awake u)
  spent : ∀ u, u ≠ t → s'.spent u = s.spent u
  checked : ∀ u, u ≠ t → ∀ e timed, s.pc u = .waitChecked e timed →
    s'.seen u = s.seen u ∧ s'.passed u = s.passed u
  clear : (s.pc t).waiter = none
  woken : s'.Woken t ↔ s.Woken t
  dequeued : s'.dequeued = s.dequeued
  succeeded : s'.succeeded = s.succeeded

theorem Move.woken_iff (hm : Move s s' t p) (u : T) : s'.Woken u ↔ s.Woken u := by
  by_cases hu : u = t
  · subst hu
    exact hm.woken
  · rw [State.Woken, hm.pc, update_of_ne hu]
    exact and_congr_right (hm.awake u hu)

theorem inv_move (h : Inv s) (hm : Move s s' t p) (hok : OkAt s' t p) : Inv s' := by
  refine inv_of_step hm.pc hm.lock hok ?_ (hm.queue ▸ h.nodup)
    (h.books.congr hm.woken_iff hm.dequeued hm.succeeded)
  intro u hu
  refine (h.ok u).frame ⟨by rw [hm.pc, update_of_ne hu], by rw [hm.queue],
    hm.gsync u hu, hm.awake u hu, hm.spent u hu, hm.checked u hu,
    cleared_update hm.pc hm.clear, ?_⟩
  intro b v _ hv hw
  exact ⟨by rwa [hm.queue], fun hw' => hw ((hm.woken_iff v).mp hw')⟩

theorem move_goto (h : Inv s) (hw : s.wait t ≠ .mutex) (hin : p.inside = (s.pc t).inside)
    (hp : p.waits = false) (hno : ¬ s.Woken t) (hclear : (s.pc t).waiter = none)
    {word : V} {seen : T → V} {passed : T → Bool} {spent : T → List T}
    (hspent : ∀ u, u ≠ t → spent u = s.spent u)
    (hchecked : ∀ u, u ≠ t → ∀ e timed, s.pc u = .waitChecked e timed →
      seen u = s.seen u ∧ passed u = s.passed u) :
    Move s ({ s with word := word, seen := seen, passed := passed, spent := spent }.goto t p) t p :=
  ⟨rfl, h.lock.goto hin hw fun _ => .rfl, rfl, fun _ _ => .rfl, fun _ _ _ => .rfl, hspent,
    hchecked, hclear, woken_iff_of_not hno (not_woken (pc_goto _ t p) hp), rfl, rfl⟩

theorem move_acquire (h : Inv s) (slow : Bool) (hin : (s.pc t).inside = false)
    (hno : (s.pc t).waits = false) (hp : p.enters = true) :
    Move s (s.acquire t slow p) t p := by
  have hclear : (s.pc t).waiter = none := by
    cases hpc : s.pc t with
    | wakeClear b v => rw [hpc] at hin; cases hin
    | _ => rfl
  have hnow : ∀ s' : State T V, s'.pc = update s.pc t p → (s'.Woken t ↔ s.Woken t) := by
    intro s' hpc
    refine woken_iff_of_not (not_woken rfl hno) (not_woken ?_ (Pc.waits_of_enters hp))
    rw [hpc, update_self]
  unfold State.acquire
  split
  next hl =>
    refine ⟨rfl, h.lock.take hl (Pc.inside_of_enters hp) ?_, rfl, fun _ _ => .rfl,
      fun _ _ _ => .rfl, fun _ _ => rfl, fun _ _ _ _ _ => ⟨rfl, rfl⟩, hclear, hnow _ rfl, rfl, rfl⟩
    show (if slow = true then Kmutex.Word.contended else .locked) ≠ .avail
    split <;> exact nofun
  next hl =>
    refine ⟨rfl, h.lock.sleep hl hp hin, rfl, ?_, ?_, fun _ _ => rfl, fun _ _ _ _ _ => ⟨rfl, rfl⟩,
      hclear, hnow _ rfl, rfl, rfl⟩
    · intro u hu
      show update s.wait t .mutex u = .gsync ↔ _
      rw [update_of_ne hu]
    · intro u hu _
      exact awake_congr (update_of_ne hu ..) rfl

theorem acquire_gsync (slow : Bool) (hw : s.wait t ≠ .gsync) :
    (s.acquire t slow p).wait t ≠ .gsync := by
  unfold State.acquire
  split
  · exact hw
  · show update s.wait t .mutex t ≠ .gsync
    rw [update_self]
    exact nofun

theorem acquire_queue (slow : Bool) : (s.acquire t slow p).queue = s.queue := by
  unfold State.acquire
  split <;> rfl

theorem acquire_spent (slow : Bool) : (s.acquire t slow p).spent = s.spent := by
  unfold State.acquire
  split <;> rfl

theorem release_cases (s : State T V) (t : T) (p : Pc T V) :
    (s.lock = .locked ∨ s.sleepers = []) ∧ s.release t p = { s with lock := .avail }.goto t p ∨
      ∃ x us, s.sleepers = x :: us ∧ s.release t p = { s with
          sleepers := us
          wait := update s.wait x .none
          result := update s.result x .awakened }.goto t p := by
  unfold State.release
  split
  next hl => exact .inl ⟨.inl hl, rfl⟩
  · split
    next hnil => exact .inl ⟨.inr hnil, rfl⟩
    next x us hsl => exact .inr ⟨x, us, hsl, rfl⟩

theorem release_self (h : Inv s) (hw : s.wait u ≠ .mutex) :
    (s.release t p).wait u = s.wait u ∧ (s.release t p).result u = s.result u := by
  rcases release_cases s t p with ⟨-, he⟩ | ⟨x, us, hsl, he⟩
  · rw [he]
    exact ⟨rfl, rfl⟩
  · have hx : u ≠ x := by
      rintro rfl
      exact hw ((h.lock.asleep u).mp (hsl ▸ mem_cons_self))
    rw [he]
    exact ⟨update_of_ne hx .., update_of_ne hx ..⟩

theorem move_release (h : Inv s) (ht : Holds s.pc s.wait t) (hp : p.inside = false)
    (hwaits : p.waits = (s.pc t).waits) (hclear : (s.pc t).waiter = none) :
    Move s (s.release t p) t p := by
  have hwoken : (s.release t p).pc = update s.pc t p → ((s.release t p).Woken t ↔ s.Woken t) := by
    intro hpc
    rw [State.Woken, hpc, update_self, (release_self h ht.2).1, (release_self h ht.2).2, hwaits]
    rfl
  have hawake : ∀ u, u ≠ t → (s.pc u).waits = true → ((s.release t p).Awake u ↔ s.Awake u) := by
    intro u _ hu
    have hw : s.wait u ≠ .mutex := by
      intro hw
      rw [Pc.waits_of_enters (h.lock.enters u hw)] at hu
      cases hu
    exact awake_congr (release_self h hw).1 (release_self h hw).2
  rcases release_cases s t p with ⟨hfree, he⟩ | ⟨x, us, hsl, he⟩
  · have hnil : s.sleepers = [] := by
      by_contra hne
      rcases hfree with hl | hl
      · rw [h.lock.contended hne] at hl
        cases hl
      · exact hne hl
    rw [he] at hwoken hawake ⊢
    exact ⟨rfl, h.lock.free_of_nil ht hnil hp, rfl, fun _ _ => .rfl, hawake, fun _ _ => rfl,
      fun _ _ _ _ _ => ⟨rfl, rfl⟩, hclear, hwoken rfl, rfl, rfl⟩
  · have hl := h.lock
    rw [hsl] at hl
    have hx : s.wait x = .mutex := (hl.asleep x).mp mem_cons_self
    rw [he] at hwoken hawake ⊢
    exact ⟨rfl, hl.hand ht hp, rfl,
      fun u _ => update_eq_iff (by rw [hx]; exact Wait.noConfusion) Wait.noConfusion u, hawake,
      fun _ _ => rfl, fun _ _ _ _ _ => ⟨rfl, rfl⟩, hclear, hwoken rfl, rfl, rfl⟩

/-! ## The steps of `gsync_wait` -/

variable {timed : Bool}

theorem clearWait_asleep (hwait : s.wait u = .gsync) (v : T) :
    update s.wait u .none v = .mutex ↔ s.wait v = .mutex :=
  update_eq_iff (by rw [hwait]; exact Wait.noConfusion) Wait.noConfusion v

theorem release_queue : (s.release t p).queue = s.queue := by
  rcases release_cases s t p with ⟨-, he⟩ | ⟨x, us, -, he⟩
  · rw [he]
    rfl
  · rw [he]
    rfl

section

variable (h : Inv s)
include h

theorem inv_enqueue {e : V} (hpc : s.pc t = .waitChecked e timed) (hw : s.wait t ≠ .mutex) :
    Inv ({ s with
      queue := s.queue ++ [t]
      wait := update s.wait t .gsync }.goto t (.waitQueued timed)) := by
  have hok := h.at hpc
  have hholds : Holds s.pc s.wait t := ⟨by rw [hpc]; rfl, hw⟩
  have hne : ∀ u, u ≠ t → update s.wait t .gsync u = s.wait u := fun u hu => update_of_ne hu ..
  have hasleep : update s.wait t .gsync t ≠ .none := by
    rw [update_self]
    exact Wait.noConfusion
  refine inv_of_step rfl (h.lock.goto (by rw [hpc]; rfl) hw (update_eq_iff hw Wait.noConfusion))
    ⟨fun _ => rfl, fun _ => rfl, mem_append_right _ (mem_singleton_self t),
      fun hawake => hasleep hawake.1⟩ ?_ ?_ (h.books.congr ?_ rfl rfl)
  · intro u hu
    refine (h.ok u).frame (quiet_of_holds h hholds hu rfl ?_ (hne u hu) rfl rfl
      (cleared_update rfl (by rw [hpc]; rfl)))
    show u ∈ s.queue ++ [t] ↔ _
    simp [hu]
  · show (s.queue ++ [t]).Nodup
    rw [nodup_append]
    refine ⟨h.nodup, nodup_singleton t, ?_⟩
    intro a ha b hb hab
    rw [mem_singleton.mp hb] at hab
    have hl := hok.listed (hab ▸ ha)
    cases hl
  · intro u
    by_cases hu : u = t
    · subst hu
      exact woken_iff_of_not (not_woken hpc rfl) fun hwoken => hasleep hwoken.2.1
    · exact woken_congr (update_of_ne hu ..) (awake_congr (hne u hu) rfl)

theorem inv_succeed (hpc : s.pc t = .waitBlocked timed) (hw : s.wait t = .none)
    (hr : s.result t = .awakened) :
    Inv ({ s with succeeded := t :: s.succeeded }.goto t .out) := by
  have hok := h.at hpc
  have hwoken : ∀ u, u ≠ t →
      (({ s with succeeded := t :: s.succeeded }.goto t .out).Woken u ↔ s.Woken u) :=
    fun u hu => woken_goto .out hu
  have hgone : ¬ ({ s with succeeded := t :: s.succeeded }.goto t .out).Woken t :=
    not_woken (pc_goto _ t .out) rfl
  refine inv_of_step rfl (h.lock.goto (by rw [hpc]; rfl) ?_ fun _ => .rfl) ?_ ?_ h.nodup
    (h.books.succeed ⟨by rw [hpc]; rfl, hw, hr⟩ hgone hwoken rfl rfl)
  · rw [hw]
    exact nofun
  · -- a thread that has been woken is not in the queue
    refine ⟨fun he => ?_, fun hm => absurd ⟨hw, hr⟩ (hok.here.2 hm), trivial⟩
    rw [show s.wait t = .gsync from he] at hw
    cases hw
  · intro u hu
    refine (h.ok u).frame ⟨update_of_ne hu .., .rfl, .rfl, fun _ => .rfl, rfl,
      fun _ _ _ => ⟨rfl, rfl⟩, cleared_update rfl (by rw [hpc]; rfl), ?_⟩
    intro b v _ hv hwv
    refine ⟨hv, ?_⟩
    by_cases hvt : v = t
    · subst hvt
      exact hgone
    · rw [hwoken v hvt]
      exact hwv

theorem inv_leave (hpc : s.pc t = .leaveLocked) (hw : s.wait t ≠ .mutex) :
    Inv ({ s with queue := s.queue.erase t }.goto t .left) := by
  have hok := h.at hpc
  have hholds : Holds s.pc s.wait t := ⟨by rw [hpc]; rfl, hw⟩
  refine inv_of_step rfl (h.lock.goto (by rw [hpc]; rfl) hw fun _ => .rfl)
    ⟨fun he => absurd (hok.gsync he) Bool.false_ne_true,
      fun hm => absurd hm h.nodup.not_mem_erase, trivial⟩ ?_ (h.nodup.erase t)
    (h.books.congr (woken_goto_iff hpc rfl rfl) rfl rfl)
  intro u hu
  exact (h.ok u).frame (quiet_of_holds h hholds hu rfl (mem_erase_of_ne hu) rfl rfl rfl
    (cleared_update rfl (by rw [hpc]; rfl)))

/-! ## The steps of `gsync_wake` -/

theorem inv_take {b : Bool} {us : List T} (hpc : s.pc t = .wakeTake b)
    (hw : s.wait t ≠ .mutex) (hq : s.queue = u :: us) :
    Inv ({ s with queue := us }.goto t (.wakeClear b u)) := by
  have hok := h.at hpc
  have hholds : Holds s.pc s.wait t := ⟨by rw [hpc]; rfl, hw⟩
  have hmem : u ∈ s.queue := hq ▸ mem_cons_self
  have hnd := h.nodup
  rw [hq] at hnd
  obtain ⟨hnot, hnd⟩ := nodup_cons.mp hnd
  have htq : t ∉ s.queue := fun hm => absurd (hok.listed hm) Bool.false_ne_true
  have hut : u ≠ t := fun he => htq (he ▸ hmem)
  refine inv_of_step rfl (h.lock.goto (by rw [hpc]; rfl) hw fun _ => .rfl) ?_ ?_ hnd
    (h.books.congr (woken_goto_iff hpc rfl rfl) rfl rfl)
  · exact ⟨fun he => absurd (hok.gsync he) Bool.false_ne_true,
      fun hm => absurd (hq ▸ mem_cons_of_mem u hm) htq, hok.here, hnot,
      fun hwu => h.not_woken_of_mem hmem ((woken_goto _ hut).mp hwu)⟩
  · intro v hv
    by_cases hvu : v = u
    · -- the waiter is no longer in the queue, but its wait will be ended
      subst hvu
      have hvok := h.ok v
      have hpv : ({ s with queue := us }.goto t (.wakeClear b v)).pc v = s.pc v :=
        update_of_ne hv ..
      rw [Ok, hpv]
      refine ⟨hvok.gsync, fun hm => absurd hm hnot, ?_⟩
      rcases h.place_of_mem hholds hv hmem with ⟨timed, hp⟩ | hp | hp
      · rw [hp]
        exact ⟨fun _ => .inr ⟨t, b, pc_goto _ t _⟩, fun hm => absurd hm hnot⟩
      · rw [hp]
        trivial
      · rw [hp]
        trivial
    · refine (h.ok v).frame (quiet_of_holds h hholds hv rfl ?_ rfl rfl rfl
        (cleared_update rfl (by rw [hpc]; rfl)))
      show v ∈ us ↔ v ∈ s.queue
      rw [hq, mem_cons]
      exact ⟨.inr, fun hm => hm.resolve_left hvu⟩

theorem clearWait_eq (hwait : s.wait u = .gsync) (r : WaitResult) : s.clearWait u r = { s with
      wait := update s.wait u .none
      result := update s.result u r } := by
  have hsl : u ∉ s.sleepers := by
    rw [h.lock.asleep u, hwait]
    exact Wait.noConfusion
  rw [State.clearWait, if_neg (by rw [hwait]; exact Wait.noConfusion), erase_of_not_mem hsl]

theorem inv_clear {b : Bool} (hpc : s.pc t = .wakeClear b u) (hw : s.wait t ≠ .mutex)
    (hwait : s.wait u = .gsync) :
    Inv ({ s.clearWait u .awakened with
      dequeued := u :: s.dequeued
      spent := update s.spent t (u :: s.spent t) }.goto t
        (if b = true ∧ s.queue ≠ [] then .wakeTake b else .wakeDone b true)) := by
  have hok := h.at hpc
  have hholds : Holds s.pc s.wait t := ⟨by rw [hpc]; rfl, hw⟩
  have htw : s.wait t ≠ .gsync := fun he => absurd (hok.gsync he) Bool.false_ne_true
  have hut : u ≠ t := fun he => htw (he ▸ hwait)
  rw [clearWait_eq h hwait]
  obtain ⟨p, hp⟩ : ∃ p, (if b = true ∧ s.queue ≠ [] then Pc.wakeTake b else .wakeDone b true) = p :=
    ⟨_, rfl⟩
  rw [hp]
  have hshape : p.inside = true ∧ p.waits = false ∧ p.listed = false := by
    rw [← hp]
    split <;> exact ⟨rfl, rfl, rfl⟩
  have hwu : ∀ v, v ≠ u → update s.wait u .none v = s.wait v := fun v hv => update_of_ne hv ..
  have hru : ∀ v, v ≠ u → update s.result u .awakened v = s.result v :=
    fun v hv => update_of_ne hv ..
  -- the waiter is blocked: only the holder of the lock is at the other place of a waiter
  have hblocked : ∃ timed, s.pc u = .waitBlocked timed := by
    have hwaits := (h.ok u).gsync hwait
    cases hpu : s.pc u with
    | waitBlocked timed => exact ⟨timed, rfl⟩
    | waitQueued timed => exact (h.not_at hholds hut hpu rfl rfl).elim
    | _ =>
      rw [hpu] at hwaits
      cases hwaits
  have hpu : update s.pc t p u = s.pc u := update_of_ne hut ..
  have hwoken : update s.wait u .none u = .none ∧ update s.result u .awakened u = .awakened :=
    ⟨update_self .., update_self ..⟩
  refine inv_of_step rfl (h.lock.goto (by rw [hshape.1, hpc]; rfl) hw (clearWait_asleep hwait))
    ?_ ?_ h.nodup (h.books.wake (not_woken_of_waits hwait) ⟨?_, hwoken⟩ ?_ rfl rfl)
  · refine ⟨?_, fun hm => absurd (hok.listed hm) Bool.false_ne_true, ?_⟩
    · intro he
      have hg : update s.wait u .none t = .gsync := he
      rw [hwu t (Ne.symm hut)] at hg
      exact absurd hg htw
    · rw [← hp]
      split
      next hb =>
        intro hf
        rw [hf] at hb
        cases hb.1
      · refine ⟨?_, ?_⟩
        · show update s.spent t (u :: s.spent t) t ≠ []
          rw [update_self]
          exact cons_ne_nil _ _
        · intro hf
          show (update s.spent t (u :: s.spent t) t).length = 1
          rw [update_self, hok.here.1 hf]
          rfl
  · intro v hv
    by_cases hvu : v = u
    · subst hvu
      obtain ⟨timed, hpb⟩ := hblocked
      show OkAt _ v (update s.pc t p v)
      rw [hpu, hpb]
      have hgone : ∀ q, update s.wait v .none v = .gsync → q := by
        intro q he
        rw [update_self] at he
        cases he
      exact ⟨hgone _, fun _ => rfl, hgone _, fun hm => absurd hm hok.here.2.1⟩
    · refine (h.ok v).frame (quiet_of_holds h hholds hv rfl .rfl (hwu v hvu) (hru v hvu)
        (update_of_ne hv ..) ?_)
      rintro ⟨x, b', hx⟩
      refine ⟨x, b', (update_of_ne ?_ ..).trans hx⟩
      rintro rfl
      rw [hpc] at hx
      cases hx
      exact hvu rfl
  · show (update s.pc t p u).waits = true
    rw [hpu]
    exact (h.ok u).gsync hwait
  · intro v hvu
    by_cases hv : v = t
    · subst hv
      exact woken_iff_of_not (not_woken hpc rfl) (not_woken (pc_goto _ v p) hshape.2.1)
    · exact woken_congr (update_of_ne hv ..) (awake_congr (hwu v hvu) (hru v hvu))

/-! ## Timeouts and interruptions -/

theorem inv_end {r : WaitResult} (hr : r ≠ .awakened) (hwait : s.wait t = .gsync) :
    Inv (s.clearWait t r) := by
  have hok := h.ok t
  rw [clearWait_eq h hwait]
  have hwu : ∀ v, v ≠ t → update s.wait t .none v = s.wait v := fun v hv => update_of_ne hv ..
  have hru : ∀ v, v ≠ t → update s.result t r v = s.result v := fun v hv => update_of_ne hv ..
  have hawake : ¬ State.Awake { s with
      wait := update s.wait t .none
      result := update s.result t r } t := by
    rintro ⟨-, he⟩
    have hf : update s.result t r t = .awakened := he
    rw [update_self] at hf
    exact hr hf
  have hwoken : ∀ v, State.Woken { s with
      wait := update s.wait t .none
      result := update s.result t r } v ↔ s.Woken v := by
    intro v
    by_cases hv : v = t
    · subst hv
      exact woken_iff_of_not (not_woken_of_waits hwait) fun hw => hawake hw.2
    · exact woken_congr rfl (awake_congr (hwu v hv) (hru v hv))
  refine inv_of_step (update_eq_self t s.pc).symm
    (h.lock.congr (fun _ => rfl) (clearWait_asleep hwait) fun _ _ => rfl) ?_ ?_ h.nodup
    (h.books.congr hwoken rfl rfl)
  · have hgone : ∀ q, update s.wait t .none t = .gsync → q := by
      intro q he
      rw [update_self] at he
      cases he
    refine ⟨hgone _, hok.listed, ?_⟩
    have hwaits := hok.gsync hwait
    have hhere := hok.here
    cases hp : s.pc t with
    | waitQueued timed =>
      rw [hp] at hhere
      exact ⟨hhere.1, hawake⟩
    | waitBlocked timed => exact ⟨hgone _, fun _ => hawake⟩
    | _ =>
      rw [hp] at hwaits
      cases hwaits
  · intro v hv
    refine (h.ok v).frame ⟨rfl, .rfl, ?_, fun _ => awake_congr (hwu v hv) (hru v hv), rfl,
      fun _ _ _ => ⟨rfl, rfl⟩, fun hc => hc, fun b x _ hx hwx => ⟨hx, fun hw => hwx ((hwoken x).mp hw)⟩⟩
    show update s.wait t .none v = .gsync ↔ _
    rw [hwu v hv]

/-! ## Calls and steps -/

theorem inv_acquire (slow : Bool) (hpc : s.pc t = q)
    (hlisted : t ∈ s.queue → p.listed = true) (hhere : Here (s.acquire t slow p) t p)
    (hin : q.inside = false := by rfl) (hno : q.waits = false := by rfl) (hp : p.enters = true := by rfl) :
    Inv (s.acquire t slow p) := by
  subst hpc
  refine inv_move h (move_acquire h slow hin hno hp) ⟨fun he => ?_, ?_, hhere⟩
  · refine absurd he (acquire_gsync slow fun hw => ?_)
    have hwaits := (h.ok t).gsync hw
    rw [hno] at hwaits
    cases hwaits
  · rw [acquire_queue]
    exact hlisted

theorem inv_return (hw : s.wait t ≠ .mutex) (hpc : s.pc t = q)
    (hin : q.inside = true := by rfl) (hno : q.waits = false := by rfl)
    (hl : q.listed = false := by rfl) (hclear : q.waiter = none := by rfl) :
    Inv (s.release t .out) := by
  obtain ⟨hgsync, hq⟩ := h.apart hpc hno hl
  subst hpc
  refine inv_move h (move_release h ⟨hin, hw⟩ rfl hno.symm hclear) ⟨?_, ?_, trivial⟩
  · rw [(release_self h hw).1]
    exact fun he => absurd he hgsync
  · rw [release_queue]
    exact fun hm => absurd hm hq

theorem inv_block (hpc : s.pc t = .waitQueued timed) (hw : s.wait t ≠ .mutex) :
    Inv (s.release t (.waitBlocked timed)) := by
  have hok := h.at hpc
  have ht : Holds s.pc s.wait t := ⟨by rw [hpc]; rfl, hw⟩
  refine inv_move h (move_release h ht rfl (by rw [hpc]; rfl) (by rw [hpc]; rfl)) ⟨fun _ => rfl, fun _ => rfl, ?_, ?_⟩
  · rw [release_queue]
    exact fun _ => .inl hok.here.1
  · intro _
    rw [State.Awake, (release_self h hw).1, (release_self h hw).2]
    exact hok.here.2

theorem inv_goto (hw : s.wait t ≠ .mutex) (hpc : s.pc t = q) (p : Pc T V)
    {word : V} {seen : T → V} {passed : T → Bool} {spent : T → List T}
    (hhere : Here ({ s with word := word, seen := seen, passed := passed, spent := spent }.goto t p) t p)
    (hchecked : ∀ u, u ≠ t → ∀ e timed, s.pc u = .waitChecked e timed →
      seen u = s.seen u ∧ passed u = s.passed u := by exact fun _ _ _ _ _ => ⟨rfl, rfl⟩)
    (hspent : ∀ u, u ≠ t → spent u = s.spent u := by exact fun _ _ => rfl)
    (hin : p.inside = q.inside := by rfl) (hno : q.waits = false := by rfl)
    (hl : q.listed = false := by rfl) (hp : p.waits = false := by rfl) (hclear : q.waiter = none := by rfl) :
    Inv ({ s with word := word, seen := seen, passed := passed, spent := spent }.goto t p) := by
  obtain ⟨hgsync, hq⟩ := h.apart hpc hno hl
  subst hpc
  exact inv_move h (move_goto h hw hin hp (not_woken rfl hno) hclear hspent hchecked)
    ⟨fun he => absurd he hgsync, fun hm => absurd hm hq, hhere⟩

theorem inv_give_up (hpc : s.pc t = .waitBlocked timed) (hw : s.wait t ≠ .mutex)
    (hgsync : s.wait t ≠ .gsync) (hr : s.result t ≠ .awakened) : Inv (s.goto t .leaveEnter) :=
  inv_move h (move_goto h hw (by rw [hpc]; rfl) rfl (fun hwo => hr hwo.2.2)
      (by rw [hpc]; rfl) (fun _ _ => rfl) fun _ _ _ _ _ => ⟨rfl, rfl⟩)
    ⟨fun he => absurd he hgsync, fun _ => rfl, trivial⟩

end

variable [DecidableEq V]

theorem inv_go (h : Inv s) {slow fault : Bool}
    (hok : ∀ b u, s.pc t = .wakeClear b u → s.wait u = .gsync)
    (hs : go s t slow fault = some s') : Inv s' := by
  unfold go at hs
  split at hs
  · cases hs
  next hw =>
  have hhere := (h.ok t).here
  generalize hpc : s.pc t = q at hs hhere
  cases q with
  | out => cases hs
  | waitEnter e timed =>
    cases hs
    have hq := (h.apart hpc rfl rfl).2
    exact inv_acquire h slow hpc (fun hm => absurd hm hq) trivial
  | waitLocked e timed =>
    simp only at hs
    split at hs
    · cases hs
      exact inv_goto h hw hpc .refused trivial
    next hno =>
      cases hs
      refine inv_goto h hw hpc (.waitChecked e timed) ⟨?_, update_self ..⟩
        fun u hu _ _ _ => ⟨update_of_ne hu .., update_of_ne hu ..⟩
      · show update s.seen t s.word t = e
        rw [update_self]
        exact not_not.mp fun hne => hno (.inr hne)
  | waitChecked e timed =>
    cases hs
    exact inv_enqueue h hpc hw
  | waitQueued timed =>
    cases hs
    exact inv_block h hpc hw
  | waitBlocked timed =>
    simp only at hs
    split at hs
    · cases hs
    next hgsync =>
    split at hs
    next hr =>
      cases hs
      refine inv_succeed h hpc ?_ hr
      cases hwt : s.wait t with
      | none => rfl
      | gsync => exact absurd hwt hgsync
      | mutex => exact absurd hwt hw
    next hr =>
      cases hs
      exact inv_give_up h hpc hw hgsync hr
  | refused | left | wakeDone =>
    cases hs
    exact inv_return h hw hpc
  | leaveEnter =>
    cases hs
    exact inv_acquire h slow hpc (fun _ => rfl) trivial
  | leaveLocked =>
    cases hs
    exact inv_leave h hpc hw
  | wakeEnter b m =>
    cases hs
    have hq := (h.apart hpc rfl rfl).2
    refine inv_acquire h slow hpc (fun hm => absurd hm hq) ?_
    show (s.acquire t slow _).spent t = []
    rw [acquire_spent]
    exact hhere
  | wakeLocked b m =>
    simp only at hs
    split at hs
    · cases hs
      exact inv_goto h hw hpc (.wakeDone b false) hhere
    · cases hs
      exact inv_goto h hw hpc (.wakeFind b) hhere
  | wakeFind b =>
    have ht : Holds s.pc s.wait t := ⟨by rw [hpc]; rfl, hw⟩
    -- nobody else is between the check of the word and the queue
    have hchecked : ∀ u, u ≠ t → ∀ e timed, s.pc u = .waitChecked e timed →
        s.seen u = s.seen u ∧ true = s.passed u := by
      intro u hu e timed hpu
      exact (h.not_at ht hu hpu rfl rfl).elim
    cases hs
    split
    · exact inv_goto h hw hpc (.wakeDone b false) hhere hchecked
    · exact inv_goto h hw hpc (.wakeTake b) (fun _ => hhere) hchecked
  | wakeTake b =>
    simp only at hs
    split at hs
    · cases hs
    next u us hq =>
      cases hs
      exact inv_take h hpc hw hq
  | wakeClear b u =>
    cases hs
    exact inv_clear h hpc hw (hok b u hpc)

theorem inv_step {a : Action T V} (h : Inv s) (hok : StillWaits s a) (hs : step s a = some s') :
    Inv s' := by
  cases a with
  | callWait t e timed =>
    obtain ⟨hpc, ⟨⟩⟩ := ite_none_right_eq_some.mp hs
    exact inv_goto h (h.not_asleep hpc) hpc (.waitEnter e timed) trivial
  | callWake t b m =>
    obtain ⟨hpc, ⟨⟩⟩ := ite_none_right_eq_some.mp hs
    exact inv_goto h (h.not_asleep hpc) hpc (.wakeEnter b m) (update_self ..)
      (fun _ _ _ _ _ => ⟨rfl, rfl⟩) fun u hu => update_of_ne hu ..
  | go t slow fault => exact inv_go h hok hs
  | store v =>
    cases hs
    refine ⟨h.lock, fun t => (h.ok t).frame ?_, h.nodup, h.books⟩
    exact ⟨rfl, .rfl, .rfl, fun _ => .rfl, rfl, fun _ _ _ => ⟨rfl, rfl⟩, fun hc => hc,
      fun _ _ _ hv hw => ⟨hv, hw⟩⟩
  | timeout t =>
    obtain ⟨hw, ⟨⟩⟩ := ite_none_right_eq_some.mp hs
    exact inv_end h nofun hw.1
  | interrupt t =>
    obtain ⟨hw, ⟨⟩⟩ := ite_none_right_eq_some.mp hs
    exact inv_end h nofun hw

/-! ## Every wake-up counts -/

/-- While no wake-up is spent on a waiter whose wait has already been ended, wake-ups and
successful waits match. -/
theorem wakes_matched (h : system.Reach StillWaits s) : Matched s := by
  refine (Lts.Reach.inv (fun _ => inv_fresh) ?_ h : Inv s).matched
  intro s a s' hinv hok hs
  exact inv_step hinv hok hs

def fresh : State Bool Nat where
  pc _ := .out
  wait _ := .none
  result _ := .awakened
  word := 0
  lock := .avail
  sleepers := []
  queue := []
  seen _ := 0
  passed _ := false
  spent _ := []
  dequeued := []
  succeeded := []

theorem fresh_init : (system : Lts (State Bool Nat) (Action Bool Nat)).init fresh :=
  ⟨fun _ => rfl, fun _ => rfl, rfl, rfl, rfl, rfl, rfl⟩

def handshake : List (Action Bool Nat) :=
  [.callWait true 0 true, .go true false false, .go true false false, .go true false false,
    .callWake false false (some 1), .go false false false, .go true false false,
    .go false false false, .go false false false, .go false false false, .go false false false,
    .go true false false]

theorem handshake_runs : (system.run fresh handshake).isSome := by decide

theorem handshake_ok : system.okRun StillWaits fresh handshake := by decide

theorem handshake_matched : ∃ s : State Bool Nat, system.run fresh handshake = some s ∧
    s.succeeded = [true] ∧ Matched s :=
  ⟨(system.run fresh handshake).get handshake_runs, (some_get _).symm, by decide,
    wakes_matched (.run handshake (.start fresh_init) handshake_ok (some_get _).symm)⟩

/-- The timer of the waiter goes off, and the other thread wakes it before it has left the
queue. -/
def lateWake : List (Action Bool Nat) :=
  [.callWait true 0 true, .go true false false, .go true false false, .go true false false,
    .go true false false, .timeout true, .callWake false false (some 1), .go false false false,
    .go false false false, .go false false false, .go false false false, .go false false false]

theorem lateWake_runs : (system.run fresh lateWake).isSome := by decide

def bothReturn : List (Action Bool Nat) :=
  [.go false false false, .go true false false, .go true false false, .go true false false,
    .go true false false]

theorem bothReturn_runs : (system.run fresh (lateWake ++ bothReturn)).isSome := by decide

/-- A wake-up is spent on a waiter that has timed out: the call of `gsync_wake` succeeds, all
calls return, and none of `gsync_wait` has succeeded. -/
theorem wake_wasted :
    (∃ s : State Bool Nat, system.run fresh lateWake = some s ∧ s.pc false = .wakeDone false true ∧
      s.spent false = [true]) ∧
    ∃ s : State Bool Nat, system.Reach anyStep s ∧ s.dequeued = [true] ∧ s.succeeded = [] ∧
      s.pc true = .out ∧ s.pc false = .out ∧ ¬ Matched s := by
  have hbooks : ∀ s : State Bool Nat, s.dequeued = [true] → s.succeeded = [] →
      s.pc true = .out → ¬ Matched s := by
    rintro s hd hs hpc ⟨-, -, ⟨ws, -, hmem, hperm⟩, -, -⟩
    rw [hd, hs] at hperm
    exact not_woken hpc rfl ((hmem true).mp (hperm.mem_iff.mp (mem_singleton_self true)))
  have hd : ((system.run fresh (lateWake ++ bothReturn)).get bothReturn_runs).dequeued = [true] := by
    decide
  have hs : ((system.run fresh (lateWake ++ bothReturn)).get bothReturn_runs).succeeded = [] := by
    decide
  have hpc : ((system.run fresh (lateWake ++ bothReturn)).get bothReturn_runs).pc true = .out := by
    decide
  exact ⟨⟨(system.run fresh lateWake).get lateWake_runs, (some_get _).symm,
      by decide, by decide +kernel⟩,
    (system.run fresh (lateWake ++ bothReturn)).get bothReturn_runs, Lts.reach_get fresh_init _,
    hd, hs, hpc, by decide, hbooks _ hd hs hpc⟩

end Mach.Kern.GsyncWake
