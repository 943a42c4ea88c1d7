import Mathlib.Data.List.TakeWhile
import Mach.Kern.Gsync

/-!
# Waiters stay in their buckets

A waiter that enters its bucket, or leaves it, changes the links of that bucket alone: the
heads of two buckets are different nodes, and a waiter is in the bucket of its key. So one
lemma about entering (`inv_wait`) and one about leaving (`Inv.drop`) carry everything;
`gsync_requeue` has to be seen as leaving.
-/

namespace Mach.Kern.Gsync

open Mach.Lib Mach.Lib.DList Mach.Kern.ListNode Function List

/-! ## The order of the keys -/

section

variable {k k' k'' : Key}

theorem Key.lt_iff : k.lt k' = true ↔ k.u < k'.u ∨ k.u = k'.u ∧ k.v < k'.v := by
  simp [Key.lt]

theorem Key.not_lt_iff : k.lt k' = false ↔ k'.u < k.u ∨ k'.u = k.u ∧ k'.v ≤ k.v := by
  rw [← Bool.not_eq_true, Key.lt_iff]
  omega

theorem Key.le_trans (h : k'.lt k = false) (h' : k''.lt k' = false) : k''.lt k = false := by
  rw [Key.not_lt_iff] at *
  omega

theorem Key.le_of_lt (h : k.lt k' = true) : k'.lt k = false := by
  rw [Key.lt_iff] at h
  rw [Key.not_lt_iff]
  omega

end

/-! ## Walks -/

variable {lp64 : Bool} {s s' : State} {lists : Nat → List Nat} {b w : Nat} {xs ys : List Nat}
  {k : Key} {stop : Key → Bool}

def nodeAt (b : Nat) (ys : List Nat) : Node := (ys.map .waiter).headD (.head b)

theorem head?_nodeAt (b : Nat) (ys : List Nat) :
    (ys.map Node.waiter ++ [Node.head b]).head? = some (nodeAt b ys) := by
  cases ys with
  | nil => rfl
  | cons y ys => rfl

theorem walk_eq {fuel : Nat} (hc : (ys.map Node.waiter ++ [Node.head b]).IsChain s.links.Linked)
    (hf : ys.length < fuel) :
    s.walk b stop fuel (nodeAt b ys) = some (nodeAt b (ys.dropWhile fun w => !stop (s.key w))) := by
  induction ys generalizing fuel with
  | nil =>
    cases fuel with
    | zero => exact absurd hf (Nat.not_lt_zero _)
    | succ fuel => exact if_pos rfl
  | cons y ys ih =>
    cases fuel with
    | zero => exact absurd hf (Nat.not_lt_zero _)
    | succ fuel =>
      rw [map_cons, cons_append, isChain_cons] at hc
      have hnext : s.links.next (.waiter y) = nodeAt b ys := (hc.1 _ (head?_nodeAt b ys)).1
      show (if stop (s.key y) = true then some (.waiter y)
        else s.walk b stop fuel (s.links.next (.waiter y))) = _
      by_cases hy : stop (s.key y) = true
      · rw [if_pos hy, dropWhile_cons_of_neg (by simp [hy])]
        rfl
      · rw [if_neg hy, hnext, ih hc.2 (Nat.lt_of_succ_lt_succ hf),
          dropWhile_cons_of_pos (by simp [hy])]

/-! ## The invariant -/

structure Inv (lp64 : Bool) (s : State) (lists : Nat → List Nat) : Prop
    extends Sound lp64 s lists where
  woken : ∀ w, s.place w = .woken → s.links.prev (.waiter w) = .null
  length : ∀ b, (lists b).length ≤ s.waits

theorem inv_fresh (h : Fresh s) : Inv lp64 s fun _ => [] := by
  refine ⟨⟨?_, fun _ => .nil, ?_, ?_, h.broken⟩, ?_, fun _ => Nat.zero_le _⟩
  · intro b
    exact ⟨nodup_singleton _, .cons_cons ⟨h.next b, h.prev b⟩ (.singleton _)⟩
  · intro b w hw
    exact absurd hw not_mem_nil
  · intro w
    rw [h.place w]
    simp
  · intro w hw
    rw [h.place w] at hw
    cases hw

theorem Inv.walk (h : Inv lp64 s lists) (b : Nat) (stop : Key → Bool) :
    s.walk b stop (s.waits + 1) (s.links.next (.head b)) =
      some (nodeAt b ((lists b).dropWhile fun w => !stop (s.key w))) := by
  have hr : Ring s.links (.head b) ([] ++ (lists b).map .waiter) := h.ring b
  have hc := (h.ring b).chain
  rw [cons_append, isChain_cons] at hc
  have hfirst : s.links.next (.head b) = nodeAt b (lists b) :=
    (hr.linked rfl (head?_nodeAt b (lists b))).1
  rw [hfirst]
  exact walk_eq hc.2 (Nat.lt_succ_of_le (h.length b))

theorem mem_nodes {n : Node} :
    n ∈ Node.head b :: xs.map .waiter ↔ n = .head b ∨ ∃ w ∈ xs, n = .waiter w := by
  simp only [mem_cons, mem_map, eq_comm]

section

variable (h : Sound lp64 s lists)
include h

theorem Sound.nodup (b : Nat) : (lists b).Nodup :=
  List.Nodup.of_map _ (nodup_cons.mp (h.ring b).nodup).2

theorem Sound.bucket_eq {b' : Nat} (hw : w ∈ lists b) (hw' : w ∈ lists b') : b' = b := by
  rw [← h.hashed b w hw, h.hashed b' w hw']

theorem Sound.not_mem {b' : Nat} (hb : b' ≠ b) {n : Node}
    (hn : n ∈ Node.head b' :: (lists b').map .waiter) :
    n ∉ Node.head b :: (lists b).map .waiter := by
  intro hn'
  rw [mem_nodes] at hn hn'
  rcases hn with rfl | ⟨w, hw, rfl⟩
  · rcases hn' with he | ⟨w, -, he⟩
    · cases he
      exact hb rfl
    · cases he
  · rcases hn' with he | ⟨w', hw', he⟩
    · cases he
    · cases he
      exact hb (h.bucket_eq hw' hw)

theorem Sound.waiter_not_mem (hw : s.place w ≠ .queued) (b : Nat) :
    Node.waiter w ∉ Node.head b :: (lists b).map .waiter := by
  rw [mem_nodes]
  rintro (he | ⟨w', hw', he⟩)
  · cases he
  · cases he
    exact hw ((h.queued w).mpr ⟨b, hw'⟩)

end

/-! ## Changes of one bucket -/

structure Change (lp64 : Bool) (s s' : State) (lists : Nat → List Nat) (b w : Nat) (l : List Nat) :
    Prop where
  ring : Ring s'.links (.head b) (l.map .waiter)
  sorted : (l.map s'.key).Pairwise fun k k' => k'.lt k = false
  other : ∀ b', b' ≠ b → w ∉ lists b'
  queued : s'.place w = .queued ↔ w ∈ l
  hashed : w ∈ l → (s'.key w).bucket lp64 = b
  woken : s'.place w = .woken → s'.links.prev (.waiter w) = .null
  mem : ∀ a, a ≠ w → (a ∈ l ↔ a ∈ lists b)
  key : ∀ a, a ≠ w → s'.key a = s.key a
  place : ∀ a, a ≠ w → s'.place a = s.place a
  links : ∀ n, n ∉ Node.head b :: (lists b).map .waiter → n ≠ .waiter w →
    s'.links.next n = s.links.next n ∧ s'.links.prev n = s.links.prev n
  length : l.length ≤ s'.waits
  waits : s.waits ≤ s'.waits
  broken : s'.broken = s.broken

theorem Inv.change {l : List Nat} (h : Inv lp64 s lists) (hc : Change lp64 s s' lists b w l) :
    Inv lp64 s' (update lists b l) := by
  -- a waiter of another bucket is another waiter
  have hne : ∀ b', b' ≠ b → ∀ a ∈ lists b', a ≠ w := by
    rintro b' hb a ha rfl
    exact hc.other b' hb ha
  have hmem : ∀ b' a, a ≠ w → (a ∈ update lists b l b' ↔ a ∈ lists b') := by
    exact update_cases hc.mem fun _ _ _ _ => .rfl
  refine ⟨⟨?_, ?_, ?_, ?_, hc.broken.trans h.intact⟩, ?_, ?_⟩
  · refine update_cases hc.ring fun b' hb => ?_
    have hlinks : ∀ n ∈ Node.head b' :: (lists b').map .waiter,
        s'.links.next n = s.links.next n ∧ s'.links.prev n = s.links.prev n := by
      intro n hn
      refine hc.links n (h.not_mem hb hn) ?_
      rintro rfl
      rcases mem_nodes.mp hn with he | ⟨a, ha, he⟩
      · cases he
      · cases he
        exact hne b' hb w ha rfl
    exact (h.ring b').congr (fun n hn => (hlinks n hn).1) fun n hn => (hlinks n hn).2
  · refine update_cases hc.sorted fun b' hb => ?_
    rw [map_congr_left fun a ha => hc.key a (hne b' hb a ha)]
    exact h.sorted b'
  · intro b' a ha
    by_cases haw : a = w
    · subst haw
      revert b'
      exact update_cases hc.hashed fun b' hb ha => absurd ha (hc.other b' hb)
    · rw [hc.key a haw]
      exact h.hashed b' a ((hmem b' a haw).mp ha)
  · intro a
    by_cases haw : a = w
    · subst haw
      rw [hc.queued]
      constructor
      · intro ha
        exact ⟨b, by rwa [update_self]⟩
      · rintro ⟨b', ha⟩
        revert b'
        exact update_cases id fun b' hb ha => absurd ha (hc.other b' hb)
    · rw [hc.place a haw, h.queued a]
      exact exists_congr fun b' => (hmem b' a haw).symm
  · intro a ha
    by_cases haw : a = w
    · subst haw
      exact hc.woken ha
    · rw [hc.place a haw] at ha
      have hnot := h.waiter_not_mem (by rw [ha]; exact nofun) b
      rw [(hc.links _ hnot fun he => haw (Node.waiter.inj he)).2]
      exact h.woken a ha
  · exact update_cases hc.length fun b' _ => Nat.le_trans (h.length b') hc.waits

theorem map_update_of_not_mem {key : Nat → Key} (hw : w ∉ xs) :
    xs.map (update key w k) = xs.map key := by
  apply map_congr_left
  intro a ha
  refine update_of_ne ?_ ..
  rintro rfl
  exact hw ha

theorem sorted_insert {l : List Nat} {key : Nat → Key}
    (h : (l.map key).Pairwise fun k k' => k'.lt k = false) :
    ((l.takeWhile fun w => !k.lt (key w)).map key ++
      k :: (l.dropWhile fun w => !k.lt (key w)).map key).Pairwise fun k k' => k'.lt k = false := by
  rw [pairwise_map] at h
  -- beyond the first greater key all are greater
  have hgt : ∀ w ∈ l.dropWhile fun w => !k.lt (key w), k.lt (key w) = true := by
    intro w hw
    have hf : (!k.lt (key w)) = false := by
      refine not_of_mem_dropWhile ?_ w hw
      refine h.imp ?_
      intro a b hab hb
      rw [Bool.not_eq_true'] at hb ⊢
      exact Key.le_trans hab hb
    simpa using hf
  have happ := takeWhile_append_dropWhile (p := fun w => !k.lt (key w)) (l := l)
  rw [← happ, pairwise_append] at h
  rw [pairwise_append, pairwise_cons, pairwise_map, pairwise_map]
  refine ⟨h.1, ⟨?_, h.2.1⟩, ?_⟩
  · intro k' hk'
    obtain ⟨w, hw, rfl⟩ := mem_map.mp hk'
    exact Key.le_of_lt (hgt w hw)
  · intro k1 hk1 k2 hk2
    obtain ⟨w, hw, rfl⟩ := mem_map.mp hk1
    have hle : k.lt (key w) = false := by
      simpa using mem_takeWhile_imp hw
    rcases mem_cons.mp hk2 with rfl | hk2
    · exact hle
    · obtain ⟨w', hw', rfl⟩ := mem_map.mp hk2
      exact h.2.2 w hw w' hw'

theorem inv_wait (h : Inv lp64 s lists) (hw : s.place w = .out) :
    ∃ lists', Inv lp64 (gsyncWait lp64 s w k) lists' := by
  have hnot := h.waiter_not_mem (by rw [hw]; exact nofun)
  have hnotw : ∀ b, w ∉ lists b := by
    intro b hm
    exact hnot b (mem_cons_of_mem _ (mem_map_of_mem hm))
  generalize hb : k.bucket lp64 = b
  have hwalk := h.walk b k.lt
  have hsorted := sorted_insert (k := k) (h.sorted b)
  have happ := takeWhile_append_dropWhile (p := fun w => !k.lt (s.key w)) (l := lists b)
  generalize (lists b).takeWhile (fun w => !k.lt (s.key w)) = xs at happ hsorted
  generalize (lists b).dropWhile (fun w => !k.lt (s.key w)) = ys at happ hsorted hwalk
  have hring := h.ring b
  have hnotb := hnot b
  rw [← happ, map_append] at hring hnotb
  have hstate : gsyncWait lp64 s w k = { s with
        links := listInsertBefore s.links (nodeAt b ys) (.waiter w)
        key := update s.key w k
        place := update s.place w .queued
        waits := s.waits + 1 } := by
    unfold gsyncWait
    rw [hb]
    dsimp only
    rw [hwalk]
    rfl
  rw [hstate]
  refine ⟨_, h.change (b := b) (l := xs ++ w :: ys)
    ⟨?_, ?_, fun b' _ => hnotw b', ?_, ?_, ?_, ?_, ?_, ?_, ?_, ?_, Nat.le_succ _, rfl⟩⟩
  · rw [map_append]
    exact ring_insertBefore hring hnotb (head?_nodeAt b ys)
  · have hwx : w ∉ xs := fun hm => hnotw b (happ ▸ mem_append_left ys hm)
    have hwy : w ∉ ys := fun hm => hnotw b (happ ▸ mem_append_right xs hm)
    dsimp only
    rw [map_append, map_cons, update_self, map_update_of_not_mem hwx, map_update_of_not_mem hwy]
    exact hsorted
  · dsimp only
    rw [update_self]
    exact ⟨fun _ => mem_append_right xs mem_cons_self, fun _ => rfl⟩
  · intro _
    dsimp only
    rw [update_self, hb]
  · dsimp only
    rw [update_self]
    exact nofun
  · intro a ha
    rw [← happ]
    simp [ha]
  · intro a ha
    exact update_of_ne ha ..
  · intro a ha
    exact update_of_ne ha ..
  · intro n hn hne
    rw [← happ, map_append] at hn
    exact insertBefore_of_not_mem hring hnotb (head?_nodeAt b ys) hn hne
  · have hlen := h.length b
    rw [← happ, length_append] at hlen
    rw [length_append, length_cons]
    dsimp only
    omega

theorem Inv.drop (h : Inv lp64 s lists) (hl : lists b = xs ++ w :: ys) {links : Links Node}
    {key : Nat → Key} {p : Place}
    (hnext : ∀ n, n ≠ .waiter w → links.next n = (listRemove s.links (.waiter w)).next n)
    (hprev : ∀ n, n ≠ .waiter w → links.prev n = (listRemove s.links (.waiter w)).prev n)
    (hkey : ∀ a, a ≠ w → key a = s.key a) (hp : p ≠ .queued)
    (hnull : p = .woken → links.prev (.waiter w) = .null) :
    Inv lp64 { s with links := links, key := key, place := update s.place w p }
      (update lists b (xs ++ ys)) := by
  have hring := h.ring b
  have hsorted := h.sorted b
  have hnodup := h.nodup b
  rw [hl] at hsorted hnodup
  rw [hl, map_append] at hring
  have hgone : w ∉ xs ++ ys := (nodup_cons.mp (nodup_middle.mp hnodup)).1
  have hnode : ∀ n ∈ Node.head b :: (xs ++ ys).map .waiter, n ≠ .waiter w := by
    rintro n hn rfl
    rcases mem_nodes.mp hn with he | ⟨a, ha, he⟩
    · cases he
    · cases he
      exact hgone ha
  refine h.change ⟨?_, ?_, ?_, ?_, fun hm => absurd hm hgone, ?_, ?_, hkey, ?_, ?_, ?_, le_rfl, rfl⟩
  · have hr := ring_remove hring
    rw [← map_append] at hr
    exact hr.congr (fun n hn => hnext n (hnode n hn)) fun n hn => hprev n (hnode n hn)
  · rw [map_congr_left fun a ha => hkey a fun he => hgone (he ▸ ha)]
    exact hsorted.sublist (((sublist_cons_self w ys).append_left xs).map s.key)
  · intro b' hb hm
    exact hb (h.bucket_eq (hl ▸ mem_append_right xs mem_cons_self) hm)
  · dsimp only
    rw [update_self]
    exact ⟨fun he => absurd he hp, fun hm => absurd hm hgone⟩
  · dsimp only
    rw [update_self]
    exact hnull
  · intro a ha
    rw [hl]
    simp [ha]
  · intro a ha
    exact update_of_ne ha ..
  · intro n hn hne
    have hn' : n ∉ Node.head b :: (xs.map .waiter ++ ys.map .waiter) := by
      rw [← map_append]
      intro hm
      refine hn (mem_nodes.mpr ((mem_nodes.mp hm).imp_right ?_))
      rintro ⟨a, ha, rfl⟩
      refine ⟨a, ?_, rfl⟩
      rw [hl]
      exact ((sublist_cons_self w ys).append_left xs).subset ha
    obtain ⟨h1, h2⟩ := remove_of_not_mem hring hn'
    exact ⟨(hnext n hne).trans h1, (hprev n hne).trans h2⟩
  · have hlen := h.length b
    rw [hl, length_append, length_cons] at hlen
    rw [length_append]
    dsimp only
    omega

end Mach.Kern.Gsync
