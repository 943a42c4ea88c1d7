import Mach.Kern.GsyncInv

/-!
# Waking and requeueing

`gsync_wake` finds its waiters where they are. `gsync_requeue` cuts its waiters into the bucket
of their new key behind the node it should cut them in before, and does not set the link that
leads back to them. The damage is undone when there is one waiter and it is taken out again
(`splice_remove`), and in no other case.
-/

namespace Mach.Kern.Gsync

open Mach.Lib Mach.Lib.DList Mach.Kern.ListNode Function List

variable {lp64 : Bool} {s s' : State} {lists : Nat → List Nat} {b w : Nat} {xs ys : List Nat}
  {k src dst : Key}

/-! ## Leaving -/

theorem Sound.split (h : Sound lp64 s lists) (hw : s.place w = .queued) :
    ∃ xs ys, lists ((s.key w).bucket lp64) = xs ++ w :: ys := by
  obtain ⟨b, hb⟩ := (h.queued w).mp hw
  rw [h.hashed b w hb]
  exact append_of_mem hb

theorem ne_null_of_mem {n : Node} (hn : n ∈ Node.head b :: xs.map .waiter) : n ≠ .null := by
  rintro rfl
  rcases mem_nodes.mp hn with he | ⟨a, -, he⟩
  · cases he
  · cases he

theorem Sound.neighbours (h : Sound lp64 s lists) (hl : lists b = xs ++ w :: ys) :
    ∃ p, s.links.Linked p (.waiter w) ∧ s.links.Linked (.waiter w) (nodeAt b ys) ∧
      Node.waiter w ≠ p ∧ Node.waiter w ≠ nodeAt b ys ∧ p ≠ .null := by
  have hring := h.ring b
  rw [hl, map_append] at hring
  obtain ⟨p, n, hp, hn, hpx, hxn, hxp, hxn'⟩ := hring.neighbours
  rw [head?_nodeAt] at hn
  cases hn
  exact ⟨p, hpx, hxn, hxp, hxn', ne_null_of_mem (mem_of_before hp)⟩

theorem inv_leave (h : Inv lp64 s lists) (hw : s.place w ≠ .out) :
    ∃ lists', Inv lp64 (gsyncLeave s w) lists' := by
  unfold gsyncLeave
  cases hp : s.place w with
  | out => exact absurd hp hw
  | queued =>
    obtain ⟨xs, ys, hl⟩ := h.split hp
    obtain ⟨p, hpx, -, -, -, hnull⟩ := h.neighbours hl
    rw [if_neg (hpx.2 ▸ hnull)]
    exact ⟨_, h.drop hl (fun _ _ => rfl) (fun _ _ => rfl) (fun _ _ => rfl)
      nofun fun he => by cases he⟩
  | woken =>
    rw [if_pos (h.woken w hp)]
    refine ⟨lists, ⟨h.ring, h.sorted, h.hashed, ?_, h.intact⟩, ?_, h.length⟩
    · show ∀ a, update s.place w .out a = .queued ↔ _
      refine update_cases ?_ fun a _ => h.queued a
      rw [← h.queued w, hp]
      exact ⟨nofun, nofun⟩
    · show ∀ a, update s.place w .out a = .woken → _
      exact update_cases (fun _ => h.woken w hp) fun a _ => h.woken a

/-! ## Finding -/

theorem hasKey_nodeAt : s.hasKey k (nodeAt b ys) = true ↔ ∃ y zs, ys = y :: zs ∧ s.key y = k := by
  cases ys with
  | nil =>
    refine ⟨nofun, ?_⟩
    rintro ⟨y, zs, he, -⟩
    cases he
  | cons y zs =>
    refine ⟨fun he => ⟨y, zs, rfl, of_decide_eq_true he⟩, ?_⟩
    rintro ⟨y', zs', he, hk⟩
    cases he
    exact decide_eq_true hk

theorem Inv.findKey (h : Inv lp64 s lists) (b : Nat) (k : Key) :
    ∃ xs ys, lists b = xs ++ ys ∧ gsyncFindKey s b k = some (nodeAt b ys) ∧
      (∀ w ∈ xs, s.key w ≠ k) ∧ ∀ w ∈ ys, s.key w = k → s.hasKey k (nodeAt b ys) = true := by
  refine ⟨_, _, (takeWhile_append_dropWhile ..).symm, h.walk b _, ?_, ?_⟩
  · intro w hw hk
    have hstop := mem_takeWhile_imp hw
    rw [hk] at hstop
    simp at hstop
  · intro w hw hk
    have hsorted := h.sorted b
    rw [← takeWhile_append_dropWhile (l := lists b), map_append, pairwise_append, pairwise_map,
      pairwise_map] at hsorted
    cases hys : (lists b).dropWhile fun w => !(k.lt (s.key w) || k = s.key w) with
    | nil =>
      rw [hys] at hw
      exact absurd hw not_mem_nil
    | cons y zs =>
      refine hasKey_nodeAt.mpr ⟨y, zs, rfl, ?_⟩
      -- the walk has stopped at a key that is not smaller, and it is not greater either
      have hy := List.head?_dropWhile_not (fun w => !(k.lt (s.key w) || k = s.key w)) (lists b)
      rw [hys] at hy hw hsorted
      have hstop : k.lt (s.key y) = false → k = s.key y := by simpa using hy
      cases hlt : k.lt (s.key y) with
      | false => exact (hstop hlt).symm
      | true =>
        rcases mem_cons.mp hw with rfl | hm
        · exact hk
        · have hle := (pairwise_cons.mp hsorted.2.1).1 w hm
          rw [hk, hlt] at hle
          cases hle

theorem Sound.mem_bucket (h : Sound lp64 s lists) :
    (∃ w, s.place w = .queued ∧ s.key w = k) ↔ ∃ w ∈ lists (k.bucket lp64), s.key w = k := by
  constructor
  · rintro ⟨w, hw, rfl⟩
    obtain ⟨b, hb⟩ := (h.queued w).mp hw
    exact ⟨w, h.hashed b w hb ▸ hb, rfl⟩
  · rintro ⟨w, hw, hk⟩
    exact ⟨w, (h.queued w).mpr ⟨_, hw⟩, hk⟩

theorem Inv.found (h : Inv lp64 s lists) (k : Key) : ∃ xs ys, lists (k.bucket lp64) = xs ++ ys ∧
      gsyncFindKey s (k.bucket lp64) k = some (nodeAt (k.bucket lp64) ys) ∧
      (∀ w ∈ xs, s.key w ≠ k) ∧
      (s.hasKey k (nodeAt (k.bucket lp64) ys) = true ↔ ∃ w, s.place w = .queued ∧ s.key w = k) := by
  obtain ⟨xs, ys, hl, hfind, hxs, hys⟩ := h.findKey (k.bucket lp64) k
  refine ⟨xs, ys, hl, hfind, hxs, ?_⟩
  rw [h.mem_bucket, hl]
  constructor
  · intro hk
    obtain ⟨y, zs, rfl, hy⟩ := hasKey_nodeAt.mp hk
    exact ⟨y, mem_append_right xs mem_cons_self, hy⟩
  · rintro ⟨w, hw, hk⟩
    rcases mem_append.mp hw with hm | hm
    · exact absurd hk (hxs w hm)
    · exact hys w hm hk

/-! ## Waking -/

theorem inv_dequeue (h : Inv lp64 s lists) (hl : lists b = xs ++ w :: ys) :
    (dequeueWaiter s (.waiter w)).1 = nodeAt b ys ∧
      Inv lp64 (dequeueWaiter s (.waiter w)).2 (update lists b (xs ++ ys)) := by
  obtain ⟨p, -, hxn, -⟩ := h.neighbours hl
  refine ⟨hxn.1, h.drop hl ?_ ?_ (fun _ _ => rfl) nofun fun _ => update_self ..⟩
  · intro n hn
    exact update_of_ne hn ..
  · intro n hn
    exact update_of_ne hn ..

structure Woken (lp64 : Bool) (s : State) (w : Nat) (k : Key) (s' : State) : Prop where
  inv : ∃ lists, Inv lp64 s' lists
  wakes : s'.place w = .woken
  place : ∀ a, s'.place a = s.place a ∨ s.key a = k ∧ s'.place a = .woken

theorem woken_dequeue {lists' : Nat → List Nat}
    (h : Inv lp64 (dequeueWaiter s (.waiter w)).2 lists') (hk : s.key w = k) :
    Woken lp64 s w k (dequeueWaiter s (.waiter w)).2 := by
  refine ⟨⟨lists', h⟩, update_self .., ?_⟩
  show ∀ a, update s.place w .woken a = _ ∨ _ ∧ update s.place w .woken a = _
  exact update_cases (.inr ⟨hk, rfl⟩) fun _ _ => .inl rfl

variable {broadcast : Bool}

theorem splice_remove {m : Links Node} {inp endp p : Node} (outp : Node) (hp : m.Linked p inp)
    (hn : m.Linked inp endp) (hip : inp ≠ p)
    (hout : outp ≠ inp → (listRemove m inp).prev ((listRemove m inp).next outp) = outp) :
    ∀ n, n ≠ inp → (listRemove (splice m inp endp outp) inp).next n = (listRemove m inp).next n ∧
      (listRemove (splice m inp endp outp) inp).prev n = (listRemove m inp).prev n := by
  have hr : listRemove m inp = ⟨update m.next p endp, update m.prev endp p⟩ := by
    unfold listRemove
    dsimp only
    rw [hp.2, update_of_ne hip, hn.1]
  -- the links after the assignments of `gsync_requeue`, from those after taking the node out
  have hs : splice m inp endp outp =
      ⟨update (update (listRemove m inp).next inp ((listRemove m inp).next outp)) outp inp,
        update (listRemove m inp).prev inp outp⟩ := by
    rw [hr]
    unfold splice
    dsimp only
    rw [hp.2, hn.2]
  generalize listRemove m inp = r at hr hs hout
  rw [hs]
  unfold listRemove
  dsimp only
  intro n hne
  rw [update_self]
  by_cases ho : outp = inp
  · subst ho
    simp [update_self, update_of_ne hne]
  · have hinp : update (update r.next inp (r.next outp)) outp inp inp = r.next outp := by
      rw [update_of_ne (Ne.symm ho), update_self]
    rw [hinp, update_of_ne (Ne.symm ho), hinp]
    constructor
    · by_cases hno : n = outp
      · subst hno
        rw [update_self]
      · rw [update_of_ne hno, update_of_ne hno, update_of_ne hne]
    · by_cases hnq : n = r.next outp
      · subst hnq
        rw [update_self, hout ho]
      · rw [update_of_ne hnq, update_of_ne hne]

theorem requeueLoop_single {fuel nw : Nat} (h : Sound lp64 s lists) (hl : lists b = xs ++ w :: ys)
    (hys : ∀ a ∈ ys, s.key a ≠ src) :
    requeueLoop b src dst broadcast (fuel + 1) s nw (.waiter w) =
      some ({ s with key := update s.key w dst }, nodeAt b ys) := by
  obtain ⟨p, -, hxn, -, hne, -⟩ := h.neighbours hl
  have hno : State.hasKey { s with key := update s.key w dst } src (nodeAt b ys) = false := by
    rw [Bool.eq_false_iff]
    intro hk
    obtain ⟨y, zs, rfl, hy⟩ := hasKey_nodeAt.mp hk
    have hyw : y ≠ w := by
      rintro rfl
      exact hne rfl
    dsimp only at hy
    rw [update_of_ne hyw] at hy
    exact hys y mem_cons_self hy
  rw [requeueLoop, hxn.1, hno, Bool.and_false]
  rfl

theorem filter_single (hl : lists b = xs ++ w :: ys) (hxs : ∀ a ∈ xs, s.key a ≠ src)
    (hw : s.key w = src) (hys : ∀ a ∈ ys, s.key a ≠ src) :
    (lists b).filter (fun a => s.key a = src) = [w] := by
  rw [hl, filter_append, filter_cons_of_pos (by simpa using hw),
    filter_eq_nil_iff.mpr (by simpa using hxs),
    filter_eq_nil_iff.mpr fun a ha => by simpa using hys a ha]
  rfl

theorem movers_single {l : List Nat} (hl : l.filter (fun a => s.key a = src) = [w]) :
    movers s l src broadcast true = [w] := by
  unfold movers
  rw [hl]
  split <;> rfl

section

variable (h : Inv lp64 s lists)
include h

theorem woken_wakeLoop {fuel : Nat} (hl : lists b = xs ++ w :: ys)
    (hk : s.key w = k) (hf : ys.length < fuel) :
    Woken lp64 s w k (wakeLoop b k broadcast fuel s (.waiter w)) := by
  induction ys generalizing s lists w fuel with
  | nil =>
    cases fuel with
    | zero => exact absurd hf (Nat.not_lt_zero _)
    | succ fuel =>
      obtain ⟨hnext, hinv⟩ := inv_dequeue h hl
      rw [wakeLoop]
      rw [hnext, if_neg (by simp [nodeAt])]
      exact woken_dequeue hinv hk
  | cons y ys ih =>
    cases fuel with
    | zero => exact absurd hf (Nat.not_lt_zero _)
    | succ fuel =>
      obtain ⟨hnext, hinv⟩ := inv_dequeue h hl
      have hfirst := woken_dequeue hinv hk
      rw [wakeLoop]
      rw [hnext]
      split
      next hmore =>
        -- the next waiter has the key, and is taken out by the rest of the loop
        have hy : s.key y = k := by
          rw [Bool.and_eq_true] at hmore
          exact of_decide_eq_true hmore.2
        have hrest := ih hinv (by rw [update_self]) hy (Nat.lt_of_succ_lt_succ hf)
        refine ⟨hrest.inv, ?_, ?_⟩
        · rcases hrest.place w with he | he
          · exact he.trans hfirst.wakes
          · exact he.2
        · intro a
          rcases hrest.place a with he | he
          · rw [show nodeAt b (y :: ys) = .waiter y from rfl, he]
            exact hfirst.place a
          · exact .inr he
      · exact hfirst

theorem wakes_gsyncWake (k : Key) (broadcast : Bool) :
    (∃ lists', Inv lp64 (gsyncWake lp64 s k broadcast).2 lists') ∧
      Wakes s k (gsyncWake lp64 s k broadcast) := by
  obtain ⟨xs, ys, hl, hfind, -, hfound⟩ := h.found k
  unfold gsyncWake
  dsimp only
  rw [hfind]
  dsimp only
  split
  next hk =>
    obtain ⟨y, zs, rfl, hy⟩ := hasKey_nodeAt.mp hk
    have hlen := h.length (k.bucket lp64)
    rw [hl, length_append, length_cons] at hlen
    have hq : s.place y = .queued := (h.queued y).mpr ⟨_, hl ▸ mem_append_right xs mem_cons_self⟩
    have hw : Woken lp64 s y k (wakeLoop (k.bucket lp64) k broadcast (s.waits + 1) s (.waiter y)) :=
      woken_wakeLoop h hl hy (by omega)
    refine ⟨hw.inv, ⟨fun _ => hfound.mp hk, fun _ => rfl⟩, fun _ => ⟨y, hq, hy, hw.wakes⟩, ?_⟩
    intro a ha
    rcases hw.place a with he | he
    · exact he
    · exact absurd he.1 ha
  next hk =>
    refine ⟨⟨lists, h⟩, ⟨nofun, fun he => absurd (hfound.mpr he) hk⟩, nofun, fun _ _ => rfl⟩

/-! ## Requeueing -/

theorem Inv.prev_next {ws : List Nat} {b' : Nat} (hl : lists b = xs ++ w :: ys)
    (hws : ws <:+ lists b') (hne : nodeAt b' ws ≠ .waiter w) :
    (listRemove s.links (.waiter w)).prev ((listRemove s.links (.waiter w)).next (nodeAt b' ws)) =
      nodeAt b' ws := by
  have hinv := h.drop (p := .out) hl (fun _ _ => rfl) (fun _ _ => rfl) (fun _ _ => rfl)
    nofun fun he => by cases he
  refine ((hinv.ring b').prev_next (mem_nodes.mpr ?_)).1
  cases ws with
  | nil => exact .inl rfl
  | cons y zs =>
    have hy : y ∈ lists b' := hws.subset mem_cons_self
    have hyw : y ≠ w := fun he => hne (he ▸ rfl)
    refine .inr ⟨y, ?_, rfl⟩
    by_cases hb : b' = b
    · subst hb
      rw [hl] at hy
      simpa [hyw] using hy
    · rw [update_of_ne hb]
      exact hy

theorem requeues_single {exact : Bool} (hq : s.place w = .queued)
    (hk : s.key w = src) (hone : ∀ a, s.place a = .queued → s.key a = src → a = w) :
    (∃ lists', Inv lp64 (gsyncRequeue lp64 s src dst broadcast true exact).2 lists') ∧
      Requeues s (movers s (lists (src.bucket lp64)) src broadcast true) src dst true
        (gsyncRequeue lp64 s src dst broadcast true exact) := by
  obtain ⟨xs, zs, hl, hfind, hxs, hfound⟩ := h.found src
  have hhas := hfound.mpr ⟨w, hq, hk⟩
  obtain ⟨y, ys, rfl, hy⟩ := hasKey_nodeAt.mp hhas
  have hmem : ∀ a ∈ lists (src.bucket lp64), s.key a = src → a = w :=
    fun a ha hka => hone a ((h.queued a).mpr ⟨_, ha⟩) hka
  obtain rfl : y = w := hmem y (hl ▸ mem_append_right xs mem_cons_self) hy
  have hys : ∀ a ∈ ys, s.key a ≠ src := by
    intro a ha hka
    obtain rfl := hmem a (hl ▸ mem_append_right xs (mem_cons_of_mem y ha)) hka
    have hnd := h.nodup (src.bucket lp64)
    rw [hl] at hnd
    exact (nodup_cons.mp (nodup_append.mp hnd).2.1).1 ha
  obtain ⟨us, vs, hl', hfind', -⟩ := h.findKey (dst.bucket lp64) dst
  obtain ⟨p, hpx, hxn, hip, -⟩ := h.neighbours hl
  have hstate : gsyncRequeue lp64 s src dst broadcast true exact = (.success, { s with
        links := listNodeInit (listRemove (splice s.links (.waiter y)
          (nodeAt (src.bucket lp64) ys) (nodeAt (dst.bucket lp64) vs)) (.waiter y)) (.waiter y)
        key := update s.key y dst
        place := update s.place y .woken }) := by
    unfold gsyncRequeue
    rw [hfind]
    dsimp only
    rw [hhas, hfind']
    rw [show nodeAt (src.bucket lp64) (y :: ys) = .waiter y from rfl,
      requeueLoop_single h.toSound hl hys]
    rfl
  have hlinks := splice_remove (nodeAt (dst.bucket lp64) vs) hpx hxn hip
    fun hne => h.prev_next hl (hl' ▸ suffix_append us vs) hne
  rw [hstate, movers_single (filter_single hl hxs hy hys)]
  refine ⟨⟨_, h.drop hl ?_ ?_ ?_ nofun fun _ => update_self ..⟩,
    ⟨fun _ => ⟨y, hq, hk⟩, fun _ => rfl⟩, ?_, ?_, nofun,
    (absurd rfl)⟩
  · intro n hn
    exact (update_of_ne hn ..).trans (hlinks n hn).1
  · intro n hn
    exact (update_of_ne hn ..).trans (hlinks n hn).2
  · intro a ha
    exact update_of_ne ha ..
  · intro _ a
    dsimp only
    rw [update_apply]
    simp
  · intro _ _
    exact ⟨y, mem_singleton_self y, rfl⟩

theorem requeues_none (hno : ∀ w, s.place w = .queued → s.key w ≠ src)
    (dst : Key) (broadcast wakeOne : Bool) (ms : List Nat) :
    (gsyncRequeue lp64 s src dst broadcast wakeOne false).2 = s ∧
      Requeues s ms src dst wakeOne (gsyncRequeue lp64 s src dst broadcast wakeOne false) := by
  obtain ⟨xs, zs, -, hfind, -, hfound⟩ := h.found src
  have hhas : s.hasKey src (nodeAt (src.bucket lp64) zs) = false := by
    rw [Bool.eq_false_iff]
    intro hk
    obtain ⟨w, hw, hkw⟩ := hfound.mp hk
    exact hno w hw hkw
  have hstate : gsyncRequeue lp64 s src dst broadcast wakeOne false = (.invalidArgument, s) := by
    unfold gsyncRequeue
    rw [hfind]
    dsimp only
    rw [hhas]
    rfl
  rw [hstate]
  refine ⟨rfl, ⟨nofun, ?_⟩, nofun, nofun, nofun, fun _ => rfl⟩
  rintro ⟨w, hw, hk⟩
  exact absurd hk (hno w hw)

theorem requeues_lucky {wakeOne exact : Bool}
    (hlucky : Lucky s (.requeue src dst broadcast wakeOne exact)) :
    (∃ lists', Inv lp64 (gsyncRequeue lp64 s src dst broadcast wakeOne exact).2 lists') ∧
      Requeues s (movers s (lists (src.bucket lp64)) src broadcast wakeOne) src dst wakeOne
        (gsyncRequeue lp64 s src dst broadcast wakeOne exact) := by
  rcases hlucky with ⟨hno, rfl⟩ | ⟨⟨w, hq, hk, hone⟩, rfl⟩
  · obtain ⟨hs, hr⟩ := requeues_none h hno dst broadcast wakeOne
      (movers s (lists (src.bucket lp64)) src broadcast wakeOne)
    exact ⟨⟨lists, by rw [hs]; exact h⟩, hr⟩
  · exact requeues_single h hq hk hone

end

/-! ## Runs -/

theorem inv_step {a : Action} (h : ∃ lists, Inv lp64 s lists) (hok : Lucky s a)
    (hs : step lp64 s a = some s') : ∃ lists, Inv lp64 s' lists := by
  obtain ⟨lists, h⟩ := h
  cases a with
  | wait w k =>
    simp only [step] at hs
    split at hs
    next hw =>
      cases hs
      exact inv_wait h hw
    · cases hs
  | leave w =>
    simp only [step] at hs
    split at hs
    · cases hs
    next hw =>
      cases hs
      exact inv_leave h hw
  | wake k broadcast =>
    cases hs
    exact (wakes_gsyncWake h k broadcast).1
  | requeue src dst broadcast wakeOne exact =>
    cases hs
    exact (requeues_lucky h hok).1

/-- **The queues of `gsync` are sound** in every run in which `gsync_requeue` is lucky: all
buckets are intact, sorted and hold the waiters of their keys, `gsync_requeue` moves and wakes
the waiters it should, and `gsync_wake` wakes a waiter whenever there is one. -/
theorem gsync_queues (h : (system lp64).Reach Lucky s) : ∃ lists, Sound lp64 s lists ∧
      (∀ src dst broadcast wakeOne exact, Lucky s (.requeue src dst broadcast wakeOne exact) →
        Requeues s (movers s (lists (src.bucket lp64)) src broadcast wakeOne) src dst wakeOne
          (gsyncRequeue lp64 s src dst broadcast wakeOne exact)) ∧
      ∀ k broadcast, Wakes s k (gsyncWake lp64 s k broadcast) := by
  obtain ⟨lists, hinv⟩ : ∃ lists, Inv lp64 s lists :=
    Lts.Reach.inv (I := fun s => ∃ lists, Inv lp64 s lists) (fun _ h0 => ⟨_, inv_fresh h0⟩)
      (fun _ _ _ hi hok hs => inv_step hi hok hs) h
  exact ⟨lists, hinv.toSound, fun _ _ _ _ _ hl => (requeues_lucky hinv hl).2,
    fun k broadcast => (wakes_gsyncWake hinv k broadcast).2⟩

/-- The table as `gsync_setup` leaves it. -/
def empty : State := ⟨⟨id, id⟩, fun _ => ⟨0, 0⟩, fun _ => .out, 0, false⟩

theorem empty_init : (system lp64).init empty := ⟨fun _ => rfl, fun _ => rfl, fun _ => rfl, rfl⟩

def word : Key := ⟨1, 4⟩

def otherWord : Key := ⟨1, 8⟩

def twoWaiters : State := gsyncWait true (gsyncWait true empty 0 word) 1 otherWord

theorem reach_twoWaiters : (system true).Reach Lucky twoWaiters := .next (a := .wait 1 otherWord)
    (.next (a := .wait 0 word) (.start empty_init) trivial rfl) trivial rfl

theorem lucky_twoWaiters : Lucky twoWaiters (.requeue word otherWord false true true) := by
  refine .inr ⟨⟨0, rfl, rfl, ?_⟩, rfl⟩
  intro w hw hk
  have hplace : twoWaiters.place = update (update (fun _ => .out) 0 .queued) 1 .queued := rfl
  have hkey : twoWaiters.key = update (update (fun _ => ⟨0, 0⟩) 0 word) 1 otherWord := rfl
  by_contra hne
  by_cases h1 : w = 1
  · subst h1
    cases hk
  · rw [hplace, update_of_ne h1, update_of_ne hne] at hw
    cases hw

/-- The waiter for the first word is moved and woken; then the other one is woken. -/
theorem twoWaiters_sound :
    (gsyncRequeue true twoWaiters word otherWord false true true).2.place 0 = .woken ∧
    (∃ lists, Sound true (gsyncRequeue true twoWaiters word otherWord false true true).2 lists) ∧
    Wakes (gsyncRequeue true twoWaiters word otherWord false true true).2 otherWord
      (gsyncWake true (gsyncRequeue true twoWaiters word otherWord false true true).2 otherWord
        false) := by
  have hreach : (system true).Reach Lucky
      (gsyncRequeue true twoWaiters word otherWord false true true).2 :=
    .next reach_twoWaiters lucky_twoWaiters rfl
  obtain ⟨lists, hsound, -, hwakes⟩ := gsync_queues hreach
  exact ⟨rfl, ⟨lists, hsound⟩, hwakes otherWord false⟩

/-! ## The damage -/

def moved : State := (gsyncRequeue true (gsyncWait true empty 0 word) word otherWord false false false).2

theorem reach_moved : (system true).Reach anyStep moved :=
  .next (a := .requeue word otherWord false false false)
    (.next (a := .wait 0 word) (.start empty_init) trivial rfl) trivial rfl

/-- A waiter that is moved leaves a list with a broken link; and without any waiter, the call
succeeds if the variable that it does not set happens not to be zero. -/
theorem requeue_breaks : ((system true).Reach anyStep moved ∧ ∀ lists, ¬ Sound true moved lists) ∧
      (∀ w, empty.place w ≠ .queued) ∧
      (gsyncRequeue true empty word otherWord false false true).1 = .success := by
  refine ⟨⟨reach_moved, ?_⟩, nofun, by decide⟩
  intro lists h
  have hring := h.ring (otherWord.bucket true)
  -- forward from the head to the waiter, forward again to the head, but not back
  have hmem : Node.waiter 0 ∈ Node.head (otherWord.bucket true) ::
      (lists (otherWord.bucket true)).map .waiter := (hring.prev_next mem_cons_self).2
  have hback := (hring.prev_next hmem).1
  revert hback
  decide

end Mach.Kern.Gsync
