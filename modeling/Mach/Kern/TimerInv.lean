import Mathlib.Data.List.Perm.Basic
import Mathlib.Data.List.TakeWhile
import Mach.Kern.Timer

/-!
# Timers fire once, in order and not early

As long as no number wraps around, the expiry that a timer is filed under is the tick at
which it is due, and `set_timeout` files it behind every timer that is due no later. So the
list is sorted by `Setting.Before`, what has been called stands before everything that still
waits, and the walk of `set_timeout` ends at the head of the list at the latest.
-/

namespace Mach.Kern.Timer

open Mach.Lib Mach.Lib.DList Function List Nat State

variable {w : Nat} {s s' : State} {xs ys : List Nat} {t : Nat}

/-! ## Links -/

section

variable {m : Links (Option Nat)} {x p n : Option Nat}

theorem insque_spec (hpn : m.next p = n) (hp : x ≠ p) (hn : x ≠ n) :
    (insque m x p).Linked p x ∧ (insque m x p).Linked x n ∧
      (∀ y, y ≠ x → y ≠ p → (insque m x p).next y = m.next y) ∧
      ∀ y, y ≠ x → y ≠ n → (insque m x p).prev y = m.prev y := by
  subst hpn
  unfold insque Links.Linked
  dsimp only
  rw [update_of_ne (Ne.symm hp)]
  refine ⟨⟨update_self .., ?_⟩, ⟨?_, update_self ..⟩, ?_, ?_⟩
  · rw [update_of_ne hn, update_self]
  · rw [update_of_ne hp, update_self]
  · intro y hx hy
    rw [update_of_ne hy, update_of_ne hx]
  · intro y hx hy
    rw [update_of_ne hy, update_of_ne hx]

theorem remqueue_spec (hpx : m.prev x = p) (hxn : m.next x = n) (hn : x ≠ n) :
    (remqueue m x).Linked p n ∧ (∀ y, y ≠ p → (remqueue m x).next y = m.next y) ∧
      ∀ y, y ≠ n → (remqueue m x).prev y = m.prev y := by
  unfold remqueue Links.Linked
  dsimp only
  rw [hxn, update_of_ne hn, hpx]
  refine ⟨⟨update_self .., update_self ..⟩, ?_, ?_⟩
  · intro y hy
    exact update_of_ne hy ..
  · intro y hy
    exact update_of_ne hy ..

theorem head_after (ys : List Nat) :
    (ys.map some ++ [none]).head? = some ((ys.map some).headD none) := by
  cases ys with
  | nil => rfl
  | cons y ys => rfl

theorem ring_insque (hr : Ring m none ((xs ++ ys).map some)) (ht : t ∉ xs ++ ys) :
    Ring (insque m (some t) (m.prev ((ys.map some).headD none))) none
      ((xs ++ t :: ys).map some) := by
  rw [map_append] at hr
  obtain ⟨p, hp⟩ := exists_before none (xs.map some)
  have hn := head_after ys
  have hlinked := hr.linked hp hn
  have hfresh : some t ∉ none :: (xs.map some ++ ys.map some) := by
    rw [← map_append, mem_cons, mem_map]
    rintro (h | ⟨u, hu, h⟩)
    · cases h
    · cases h
      exact ht hu
  rw [hlinked.2]
  obtain ⟨h1, h2, h3, h4⟩ := insque_spec (x := some t) hlinked.1 (fun h => hfresh (h ▸ before_mem hp))
    fun h => hfresh (h ▸ after_mem hn)
  rw [map_append, map_cons]
  refine hr.insert hp hn hfresh h1 h2 ?_ ?_
  · intro y hy hyp
    exact h3 y (fun h => hfresh (h ▸ hy)) hyp
  · intro y hy hyn
    exact h4 y (fun h => hfresh (h ▸ hy)) hyn

theorem ring_remqueue (hr : Ring m none ((xs ++ t :: ys).map some)) :
    Ring (remqueue m (some t)) none ((xs ++ ys).map some) := by
  rw [map_append, map_cons] at hr
  obtain ⟨p, n, hp, hn, hpt, htn, -, hne⟩ := hr.neighbours
  obtain ⟨h1, h2, h3⟩ := remqueue_spec hpt.2 htn.1 hne
  rw [map_append]
  exact hr.unlink hp hn h1 (fun y _ hy => h2 y hy) fun y _ hy => h3 y hy

end

/-! ## The walk of `set_timeout` -/

theorem scan_eq {e fuel : Nat} (he : e < 2 ^ w - 1)
    (hc : (ys.map some ++ [none]).IsChain s.links.Linked) (hf : ys.length < fuel) :
    scan w s e fuel ((ys.map some).headD none) =
      some (((ys.dropWhile fun t => decide (s.ticks t ≤ e)).map some).headD none) := by
  induction ys generalizing fuel with
  | nil =>
    cases fuel with
    | zero => exact absurd hf (not_lt_zero _)
    | succ fuel =>
      rw [scan]
      exact if_pos he
  | cons y ys ih =>
    cases fuel with
    | zero => exact absurd hf (not_lt_zero _)
    | succ fuel =>
      rw [map_cons, cons_append, isChain_cons] at hc
      have hnext : s.links.next (some y) = (ys.map some).headD none := (hc.1 _ (head_after ys)).1
      show (if s.ticks y > e then some (some y) else scan w s e fuel (s.links.next (some y))) = _
      by_cases hy : s.ticks y ≤ e
      · rw [if_neg (not_lt.mpr hy), hnext,
          ih hc.2 (lt_of_succ_lt_succ hf), dropWhile_cons_of_pos (by simpa using hy)]
      · rw [if_pos (not_le.mp hy), dropWhile_cons_of_neg (by simpa using hy)]
        rfl

theorem first_of_ring (hr : Ring s.links none (xs.map some)) :
    s.links.next none = (xs.map some).headD none := by
  have hr' : Ring s.links none ([] ++ xs.map some) := hr
  exact (hr'.linked rfl (head_after xs)).1

theorem chain_of_ring (hr : Ring s.links none (xs.map some)) :
    (xs.map some ++ [none]).IsChain s.links.Linked := by
  have hc := hr.chain
  rw [cons_append, isChain_cons] at hc
  exact hc.2

/-! ## The invariant -/

def State.gone (s : State) : List Setting := s.inCall ++ s.called.map Call.setting

structure Inv (w : Nat) (s : State) (xs : List Nat) : Prop where
  ring : Ring s.links none (xs.map some)
  isSet : ∀ t, s.isSet t = true ↔ t ∈ xs
  exact : ∀ t ∈ xs, s.ticks t = (s.setting t).due ∧ s.ticks t < 2 ^ w - 1
  sorted : (xs.map s.setting).Pairwise Setting.Before
  elapsed : s.elapsedTicks = s.now ∧ s.now < 2 ^ w
  once : ((xs.map s.setting ++ s.gone ++ s.cancelled).map Setting.order).Perm (List.range s.sets)
  past : ∀ c ∈ s.gone, c.due ≤ s.now ∧ ∀ t ∈ xs, c.Before (s.setting t)
  order : s.gone.Pairwise fun new old => old.Before new
  due : ∀ c ∈ s.called, c.setting.due ≤ c.tick
  calling : s.calling ≠ some none
  terminates : s.looping = false
  alive : s.crashed = false

theorem inv_empty (h : Empty w s) : Inv w s [] := by
  obtain ⟨hc, hl, ha, hsets, hcalled, hcan⟩ := h.fresh
  have hgone : s.gone = [] := by
    unfold gone inCall
    rw [hc, hcalled]
    rfl
  refine ⟨⟨nodup_singleton _, ?_⟩, ?_, ?_, .nil, ⟨h.elapsed.1, ?_⟩, ?_, ?_, ?_, ?_, ?_, hl, ha⟩
  · exact .cons_cons ⟨h.next, h.prev⟩ (.singleton _)
  · intro t
    rw [h.isSet t]
    simp
  · exact forall_mem_nil _
  · exact h.elapsed.1 ▸ h.elapsed.2
  · rw [hgone, hcan, hsets]
    exact .nil
  · rw [hgone]
    exact forall_mem_nil _
  · rw [hgone]
    exact .nil
  · rw [hcalled]
    exact forall_mem_nil _
  · rw [hc]
    nofun

theorem mem_of_ne {u : Nat} (hu : u ∈ xs ++ t :: ys) (hut : u ≠ t) : u ∈ xs ++ ys := by
  simpa [hut] using hu

theorem sublist_middle (xs ys : List Nat) (t : Nat) : (xs ++ ys).Sublist (xs ++ t :: ys) :=
  (sublist_cons_self t ys).append_left xs

section

variable (h : Inv w s xs)
include h

theorem Inv.order_lt {c : Setting}
    (hc : c ∈ xs.map s.setting ++ s.gone ++ s.cancelled) : c.order < s.sets :=
  mem_range.mp (h.once.subset (mem_map_of_mem hc))

theorem Inv.length_le : xs.length ≤ s.sets := by
  have hlen := h.once.length_eq
  rw [length_map, length_range, length_append, length_append, length_map] at hlen
  omega

theorem Inv.nodup : xs.Nodup :=
  List.Nodup.of_map some (nodup_cons.mp h.ring.nodup).2

/-! ## Setting a timer -/

theorem Inv.place (e : Nat) :
    (∀ u ∈ xs.takeWhile fun t => decide (s.ticks t ≤ e), (s.setting u).due ≤ e) ∧
      ∀ u ∈ xs.dropWhile fun t => decide (s.ticks t ≤ e), e < (s.setting u).due := by
  constructor
  · intro u hu
    have hmem := (takeWhile_sublist _).subset hu
    have hle := mem_takeWhile_imp hu
    rw [decide_eq_true_eq, (h.exact u hmem).1] at hle
    exact hle
  · intro u hu
    have hmem := (dropWhile_sublist _).subset hu
    have hmono : xs.Pairwise fun a b =>
        decide (s.ticks b ≤ e) = true → decide (s.ticks a ≤ e) = true := by
      have hs := pairwise_map.mp h.sorted
      refine hs.imp_of_mem ?_
      intro a b ha hb hab
      rw [decide_eq_true_eq, decide_eq_true_eq, (h.exact a ha).1, (h.exact b hb).1]
      unfold Setting.Before at hab
      omega
    have hgt := not_of_mem_dropWhile hmono u hu
    rw [decide_eq_false_iff_not, (h.exact u hmem).1] at hgt
    omega

theorem inv_setTimeout {interval : UInt32}
    (hr : InRange w s (.set t interval)) : ∃ ys, Inv w (setTimeout w s t interval) ys := by
  obtain ⟨hset, h32, hw⟩ := hr
  have he : (interval.toNat + s.elapsedTicks) % 2 ^ 32 = s.now + interval.toNat := by
    rw [mod_eq_of_lt (by omega), h.elapsed.1, add_comm]
  have hfresh : t ∉ xs := by
    intro hmem
    rw [(h.isSet t).mpr hmem] at hset
    cases hset
  unfold setTimeout
  dsimp only
  rw [he, first_of_ring h.ring, scan_eq (by rw [← h.elapsed.1]; exact hw) (chain_of_ring h.ring)
    (lt_succ_of_le h.length_le)]
  generalize hp : (fun t => decide (s.ticks t ≤ s.now + interval.toNat)) = p
  obtain ⟨hbefore, hafter⟩ := h.place (s.now + interval.toNat)
  rw [hp] at hbefore hafter
  have hsplit : xs.takeWhile p ++ xs.dropWhile p = xs := takeWhile_append_dropWhile
  generalize xs.takeWhile p = as at *
  generalize xs.dropWhile p = bs at *
  subst hsplit
  have hta : ∀ u ∈ as, u ≠ t := fun u hu hut => hfresh (mem_append_left _ (hut ▸ hu))
  have htb : ∀ u ∈ bs, u ≠ t := fun u hu hut => hfresh (mem_append_right _ (hut ▸ hu))
  have hold : ∀ u ∈ as ++ bs, u ≠ t := fun u hu hut => hfresh (hut ▸ hu)
  -- the settings of the list, with the new one in its place
  have hmap : (as ++ t :: bs).map (update s.setting t ⟨s.sets, s.now + interval.toNat⟩) =
      as.map s.setting ++ ⟨s.sets, s.now + interval.toNat⟩ :: bs.map s.setting := by
    rw [map_append, map_cons, update_self, map_congr_left fun u hu => update_of_ne (hta u hu) _ _,
      map_congr_left fun u hu => update_of_ne (htb u hu) _ _]
  have horder : ∀ u ∈ as ++ bs, (s.setting u).order < s.sets := fun u hu =>
    h.order_lt (mem_append_left _ (mem_append_left _ (mem_map_of_mem hu)))
  refine ⟨as ++ t :: bs, ring_insque h.ring hfresh, ?_, ?_, ?_, h.elapsed, ?_, ?_, h.order, h.due,
    h.calling, h.terminates, h.alive⟩
  · intro u
    by_cases hu : u = t
    · subst hu
      simp
    · dsimp only
      rw [update_of_ne hu, h.isSet u]
      simp [hu]
  · intro u hu
    by_cases hut : u = t
    · subst hut
      dsimp only
      rw [update_self, update_self]
      exact ⟨rfl, by rw [← h.elapsed.1]; exact hw⟩
    · dsimp only
      rw [update_of_ne hut, update_of_ne hut]
      exact h.exact u (mem_of_ne hu hut)
  · have hs := h.sorted
    rw [map_append, pairwise_append] at hs
    rw [hmap, pairwise_append, pairwise_cons]
    refine ⟨hs.1, ⟨?_, hs.2.1⟩, ?_⟩
    · intro c hc
      obtain ⟨u, hu, rfl⟩ := mem_map.mp hc
      exact .inl (hafter u hu)
    · intro c hc d hd
      rcases mem_cons.mp hd with rfl | hd
      · obtain ⟨u, hu, rfl⟩ := mem_map.mp hc
        have hdue := hbefore u hu
        have hord := horder u (mem_append_left _ hu)
        unfold Setting.Before
        dsimp only
        omega
      · exact hs.2.2 c hc d hd
  · have hgone : gone { s with
        ticks := update s.ticks t (s.now + interval.toNat)
        links := insque s.links (some t) (s.links.prev ((bs.map some).headD none))
        isSet := update s.isSet t true
        setting := update s.setting t ⟨s.sets, s.now + interval.toNat⟩
        sets := s.sets + 1 } = s.gone := rfl
    rw [hgone]
    rw [hmap, append_assoc, append_assoc, cons_append, range_succ]
    have honce := h.once
    rw [show (as ++ bs).map s.setting = as.map s.setting ++ bs.map s.setting from map_append,
      append_assoc, append_assoc] at honce
    refine (List.perm_middle.map Setting.order).trans ?_
    rw [map_cons]
    exact (honce.cons s.sets).trans (perm_append_singleton s.sets _).symm
  · intro c hc
    have hc' : c ∈ s.gone := hc
    obtain ⟨hnow, hbef⟩ := h.past c hc'
    refine ⟨hnow, ?_⟩
    intro u hu
    by_cases hut : u = t
    · subst hut
      dsimp only
      rw [update_self]
      have hord := h.order_lt (mem_append_left s.cancelled
        (mem_append_right ((as ++ bs).map s.setting) hc'))
      unfold Setting.Before
      dsimp only
      omega
    · dsimp only
      rw [update_of_ne hut]
      exact hbef u (mem_of_ne hu hut)

/-! ## Taking a timer out -/

omit h in
theorem Inv.isSet_unlink (h : Inv w s (xs ++ t :: ys)) (u : Nat) :
    update s.isSet t false u = true ↔ u ∈ xs ++ ys := by
  have hnot : t ∉ xs ++ ys := by
    have hnd := h.nodup
    rw [nodup_middle, nodup_cons] at hnd
    exact hnd.1
  by_cases hu : u = t
  · subst hu
    simp [hnot]
  · rw [update_of_ne hu, h.isSet u]
    exact ⟨fun hm => mem_of_ne hm hu, fun hm => (sublist_middle xs ys t).subset hm⟩

theorem inv_resetTimeout (t : Nat) : ∃ ys, Inv w (resetTimeout s t).2 ys := by
  unfold resetTimeout
  split
  next hset =>
    obtain ⟨as, bs, rfl⟩ := append_of_mem ((h.isSet t).mp hset)
    have hsub := sublist_middle as bs t
    refine ⟨as ++ bs, { h with
      ring := ring_remqueue h.ring
      isSet := h.isSet_unlink
      exact := fun u hu => h.exact u (hsub.subset hu)
      sorted := h.sorted.sublist (hsub.map s.setting)
      once := List.Perm.trans (List.Perm.map Setting.order ?_) h.once
      past := fun c hc => ⟨(h.past c hc).1, fun u hu => (h.past c hc).2 u (hsub.subset hu)⟩ }⟩
    -- the setting goes from the list to those that have been cancelled
    show (((as ++ bs).map s.setting ++ s.gone) ++ s.setting t :: s.cancelled).Perm _
    rw [map_append, map_append, map_cons]
    refine List.perm_middle.trans ?_
    rw [append_assoc, append_assoc, append_assoc, append_assoc, cons_append]
    exact List.perm_middle.symm
  · exact ⟨xs, h⟩

theorem inv_softclock (hr : s.elapsedTicks < 2 ^ w - 1)
    (hidle : s.calling = none) : ∃ ys, Inv w (softclock w s) ys := by
  unfold softclock
  dsimp only
  split
  · exact ⟨xs, h⟩
  next hdue =>
    rw [first_of_ring h.ring] at hdue ⊢
    cases xs with
    | nil => exact absurd hr hdue
    | cons t ys =>
      have hsub := sublist_middle [] ys t
      have h' : Inv w s ([] ++ t :: ys) := h
      have hgone : s.gone = s.called.map Call.setting := by
        unfold gone inCall
        rw [hidle]
        rfl
      have hsorted := h.sorted
      rw [map_cons, pairwise_cons] at hsorted
      have hnow : (s.setting t).due ≤ s.now := by
        rw [← (h.exact t mem_cons_self).1, ← h.elapsed.1]
        exact not_lt.mp hdue
      refine ⟨ys, { h with
        ring := ring_remqueue h'.ring
        isSet := h'.isSet_unlink
        exact := fun u hu => h.exact u (hsub.subset hu)
        sorted := hsorted.2
        once := ?_
        past := ?_
        order := ?_
        calling := ?_ }⟩
      · -- the first setting of the list is the first one that has gone
        refine List.Perm.trans (List.Perm.map Setting.order ?_) h.once
        show ((ys.map s.setting ++ s.setting t :: s.called.map Call.setting) ++ s.cancelled).Perm _
        rw [hgone, map_cons]
        exact List.Perm.append_right s.cancelled List.perm_middle
      · intro c hc
        rcases mem_cons.mp hc with rfl | hc
        · refine ⟨hnow, ?_⟩
          intro u hu
          exact hsorted.1 _ (mem_map_of_mem hu)
        · obtain ⟨hnow, hbef⟩ := h.past c (hgone ▸ hc)
          exact ⟨hnow, fun u hu => hbef u (hsub.subset hu)⟩
      · refine pairwise_cons.mpr ⟨?_, hgone ▸ h.order⟩
        intro c hc
        exact (h.past c (hgone ▸ hc)).2 t mem_cons_self
      · nofun

theorem inv_callFunction : Inv w (callFunction s) xs := by
  unfold callFunction
  split
  · exact h
  next hc => exact absurd hc h.calling
  next c hc =>
    have hgone : gone { s with calling := none, called := ⟨c, s.now⟩ :: s.called } =
        s.gone := by
      unfold gone inCall
      rw [hc]
      rfl
    have hmem : c ∈ s.gone := hgone ▸ mem_cons_self
    exact { h with
      once := hgone ▸ h.once
      past := hgone ▸ h.past
      order := hgone ▸ h.order
      due := forall_mem_cons.mpr ⟨(h.past c hmem).1, h.due⟩
      calling := nofun }

theorem inv_clockTick (hr : s.elapsedTicks + 1 < 2 ^ w - 1) : Inv w (clockTick w s) xs := by
  refine { h with
    elapsed := ?_
    past := fun c hc => ⟨le_succ_of_le (h.past c hc).1, (h.past c hc).2⟩ }
  show (s.elapsedTicks + 1) % 2 ^ w = s.now + 1 ∧ s.now + 1 < 2 ^ w
  have := h.elapsed.1
  rw [mod_eq_of_lt (by omega)]
  omega

end

/-! ## Every run -/

theorem inv_reach (h : (system w).Reach (InRange w) s) : ∃ xs, Inv w s xs := by
  refine Lts.Reach.inv (I := fun s => ∃ xs, Inv w s xs) ?_ ?_ h
  · intro s hs
    exact ⟨[], inv_empty hs⟩
  rintro s a s' ⟨xs, hinv⟩ hr hstep
  cases a with
  | set t interval =>
    cases hstep
    exact inv_setTimeout hinv hr
  | reset t =>
    cases hstep
    exact inv_resetTimeout hinv t
  | tick =>
    cases hstep
    exact ⟨xs, inv_clockTick hinv hr⟩
  | look =>
    simp only [system, step] at hstep
    split at hstep
    · cases hstep
    next hidle =>
      cases hstep
      exact inv_softclock hinv hr (by simpa using hidle)
  | call =>
    simp only [system, step] at hstep
    split at hstep
    · cases hstep
      exact ⟨xs, inv_callFunction hinv⟩
    · cases hstep

/-- **Timers fire once, in order and not early**, and the walk of `set_timeout` ends, in every
run whose numbers stay in range. -/
theorem timers_punctual (h : (system w).Reach (InRange w) s) : ∃ xs, Punctual w s xs := by
  obtain ⟨xs, hinv⟩ := inv_reach h
  refine ⟨xs, hinv.ring, hinv.isSet, ?_, ?_, hinv.due, ?_, ?_, hinv.terminates, hinv.alive⟩
  · rw [pairwise_append]
    refine ⟨?_, pairwise_singleton _ _, ?_⟩
    · rw [pairwise_map]
      refine (pairwise_map.mp hinv.sorted).imp_of_mem ?_
      intro a b ha hb hab
      rw [(hinv.exact a ha).1, (hinv.exact b hb).1]
      unfold Setting.Before at hab
      omega
    · intro a ha b hb
      obtain ⟨t, ht, rfl⟩ := mem_map.mp ha
      rw [mem_singleton.mp hb]
      exact le_of_lt (hinv.exact t ht).2
  · have honce := hinv.once
    unfold gone at honce
    rwa [← append_assoc] at honce
  · exact hinv.order.sublist (sublist_append_right _ _)
  · intro hfirst t ht
    have hmem := (hinv.isSet t).mp ht
    rw [first_of_ring hinv.ring] at hfirst
    cases xs with
    | nil => exact absurd hmem not_mem_nil
    | cons u ys =>
      have hu : s.now < (s.setting u).due := by
        rw [← (hinv.exact u mem_cons_self).1, ← hinv.elapsed.1]
        exact hfirst
      rcases mem_cons.mp hmem with rfl | hmem
      · exact hu
      · have hbef := (pairwise_cons.mp hinv.sorted).1 _ (mem_map_of_mem hmem)
        unfold Setting.Before at hbef
        omega

/-- No timer is set, and `n` ticks have elapsed. -/
def emptyState (n : Nat) : State where
  links := ⟨id, id⟩
  ticks := fun _ => 0
  isSet := fun _ => false
  elapsedTicks := n
  calling := none
  looping := false
  crashed := false
  now := n
  setting := fun _ => ⟨0, 0⟩
  sets := 0
  called := []
  cancelled := []

theorem empty_emptyState {n : Nat} (h : n < 2 ^ w) : Empty w (emptyState n) :=
  ⟨rfl, rfl, fun _ => rfl, ⟨rfl, h⟩, rfl, rfl, rfl, rfl, rfl, rfl⟩

instance decidableInRange (w : Nat) (s : State) : (a : Action) → Decidable (InRange w s a)
  | .set .. => inferInstanceAs (Decidable (_ ∧ _))
  | .reset _ => .isTrue trivial
  | .tick => inferInstanceAs (Decidable (_ < _))
  | .look => inferInstanceAs (Decidable (_ < _))
  | .call => .isTrue trivial

def threeTimers : List Action :=
  [.set 7 2, .set 8 1, .set 9 1, .reset 7, .tick, .look, .call, .look, .call, .look]

theorem threeTimers_punctual : ∃ s, (system 64).run (emptyState 5) threeTimers = some s ∧
    s.called = [⟨⟨2, 6⟩, 6⟩, ⟨⟨1, 6⟩, 6⟩] ∧ s.cancelled = [⟨0, 7⟩] ∧ ∃ xs, Punctual 64 s xs :=
  ⟨_, rfl, by decide, by decide, timers_punctual (Lts.Reach.run (s := emptyState 5) threeTimers
      (.start (empty_emptyState (by decide))) (by decide) rfl)⟩

/-- With an `unsigned long` of 64 bits, a timer set for ten ticks is called at once, as its
expiry has wrapped around. With one of 32 bits, `set_timeout` may be given the expiry of the
sentinel, which the walk never gets past. -/
theorem timer_early :
    (∃ s, (system 64).run (emptyState (2 ^ 32 - 1)) [.set 7 10, .look, .call] = some s ∧
      s.called = [⟨⟨0, 2 ^ 32 + 9⟩, 2 ^ 32 - 1⟩] ∧ ¬ ∃ xs, Punctual 64 s xs) ∧
    (∀ fuel, scan 32 (emptyState (2 ^ 32 - 11)) (2 ^ 32 - 1) fuel none = none) ∧
    ∃ s, (system 32).run (emptyState (2 ^ 32 - 11)) [.set 7 10] = some s ∧ s.looping = true := by
  refine ⟨⟨_, rfl, by decide, ?_⟩, ?_, ⟨_, rfl, by decide⟩⟩
  · rintro ⟨xs, h⟩
    have := h.due ⟨⟨0, 2 ^ 32 + 9⟩, 2 ^ 32 - 1⟩ mem_cons_self
    revert this
    decide
  · intro fuel
    induction fuel with
    | zero => rfl
    | succ fuel ih =>
      rw [scan, if_neg (by decide)]
      exact ih

end Mach.Kern.Timer
