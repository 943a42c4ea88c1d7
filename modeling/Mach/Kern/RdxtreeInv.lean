import Mach.Kern.Rdxtree

/-!
# What holds below every slot of a radix tree

`Ok` is the invariant of a subtree. Nodes are never empty and count their entries
correctly. The bitmaps are only partly what the comment on `struct rdxtree_node`
says of them: a set bit means that something can be allocated below, but a clear
bit only means that the slot is taken by a node that has a clear bit itself.
`rdxtree_insert_bm_clear` clears the bit of a node once all its slots are taken,
whether or not there is room below them.
-/

namespace Mach.Kern.Radix

open Lib.Slots Function Option Fintype Node Removal

variable {α β : Type}

/-! ## Nodes -/

namespace Node

variable {n : Node β} {i j : Fin 64}

@[simp] theorem insert_bm (x : β) : (n.insert i x).bmIsSet j = n.bmIsSet j := rfl

@[simp] theorem remove_bm : (n.remove i).bmIsSet j = n.bmIsSet j := rfl

@[simp] theorem bmSet_bm : (n.bmSet i).bmIsSet j = (n.bmIsSet j || decide (j = i)) :=
  isSet_setBit ..

@[simp] theorem bmClear_bm : (n.bmClear i).bmIsSet j = (n.bmIsSet j && !decide (j = i)) :=
  isSet_clearBit ..

@[simp] theorem create_bm : (create : Node β).bmIsSet i = true := isSet_allOnes i

@[simp] theorem bmSet_entries : (n.bmSet i).entries = n.entries := rfl

@[simp] theorem bmClear_entries : (n.bmClear i).entries = n.entries := rfl

@[simp] theorem insert_entries (x : β) : (n.insert i x).entries = update n.entries i (some x) := rfl

@[simp] theorem remove_entries : (n.remove i).entries = update n.entries i none := rfl

theorem bmEmpty_iff : n.bmEmpty ↔ ∀ i, n.bmIsSet i = false := by
  simp only [bmEmpty, decide_eq_true_eq]
  exact eq_zero_iff

def Counted (n : Node β) : Prop := n.nrEntries = used n.entries

theorem Counted.create : (create : Node β).Counted := (used_eq_zero.mpr fun _ => rfl).symm

theorem Counted.insert (h : n.Counted) (i : Fin 64) (x : β) : (n.insert i x).Counted := by
  unfold Counted Node.insert at *
  cases hi : n.entries i with
  | none => simp [used_store_free hi, h]
  | some y => simp [used_store_used hi, h]

theorem Counted.remove (h : n.Counted) (i : Fin 64) : (n.remove i).Counted := by
  unfold Counted Node.remove at *
  cases hi : n.entries i with
  | none =>
    have hsame : update n.entries i none = n.entries := by
      rw [← hi, update_eq_self]
    simp [hsame, h]
  | some y =>
    have := used_clear hi
    simp only [isSome_some, if_true]
    omega

theorem Counted.full_iff (h : n.Counted) : n.full ↔ ∀ i, (n.entries i).isSome := by
  have hcard : card (Fin 64) = 64 := card_fin 64
  rw [← used_eq_card, hcard, ← h, full, decide_eq_true_eq]

theorem Counted.empty_iff (h : n.Counted) : n.empty ↔ ∀ i, n.entries i = none := by
  rw [← used_eq_zero, ← h, empty, decide_eq_true_eq]

theorem insert_self {x : β} (h : n.entries i = some x) : n.insert i x = n := by
  have : update n.entries i (some x) = n.entries := by
    rw [← h, update_eq_self]
  simp [Node.insert, this, h]

theorem remove_self (h : n.entries i = none) : n.remove i = n := by
  have : update n.entries i none = n.entries := by
    rw [← h, update_eq_self]
  simp [Node.remove, this, h]

end Node

/-! ## Subtrees -/

def Roomy : (h : Nat) → Tree α h → Prop
  | 0, _ => False
  | _ + 1, n => ∃ i, Node.bmIsSet n i

def Marked : (h : Nat) → Tree α h → Prop
  | 0, _ => True
  | _ + 1, n => ∃ i, Node.bmIsSet n i = false

structure Node.Ok (ok roomy marked : β → Prop) (n : Node β) : Prop where
  counted : n.Counted
  child : ∀ i c, n.entries i = some c → ok c
  clear : ∀ i, n.bmIsSet i = false → ∃ c, n.entries i = some c ∧ marked c
  set : ∀ i c, n.entries i = some c → n.bmIsSet i → roomy c

def Ok : (h : Nat) → Tree α h → Prop
  | 0, _ => True
  | h + 1, n => Node.Ok (Ok h) (Roomy h) (Marked h) n ∧ ¬ Node.empty n

theorem Node.Ok.create {ok roomy marked : β → Prop} : (Node.create : Node β).Ok ok roomy marked :=
  ⟨.create, fun _ _ h => by simp [Node.create] at h, fun _ h => by simp at h,
    fun _ _ h => by simp [Node.create] at h⟩

theorem noRoom_iff (h : Nat) (t : Tree α h) : noRoom h t ↔ ¬ Roomy h t := by
  cases h with
  | zero => simp [noRoom, Roomy]
  | succ h =>
    have := bmEmpty_iff (n := t)
    simpa [noRoom, Roomy] using this

/-! ## Insertion -/

structure Inserted (h : Nat) (c : Option (Tree α h)) (t : Tree α h) (clear : Bool) : Prop where
  ok : Ok h t
  marked : clear → Marked h t
  keeps : ∀ c₀, c = some c₀ → Marked h c₀ → Marked h t
  roomy : clear = false → (∀ c₀, c = some c₀ → Roomy h c₀) → Roomy h t

variable {h avail avail' k key j : Nat} {n : Node (Tree α h)} {i : Fin 64}
  {c : Option (Tree α (h + 1))} {o : Outcome β} {v : α}

theorem Inserted.node {t : Tree α h} {clear : Bool} (hn : n.Ok (Ok h) (Roomy h) (Marked h))
    (ht : Inserted h (n.entries i) t clear) :
    Node.Ok (Ok h) (Roomy h) (Marked h)
      (if clear then (n.insert i t).bmClear i else n.insert i t) := by
  have hcount := hn.counted.insert i t
  have hentries : ∀ j c, (n.insert i t).entries j = some c →
      (j = i ∧ c = t) ∨ (j ≠ i ∧ n.entries j = some c) := by
    intro j c hj
    by_cases hji : j = i
    · subst hji
      exact .inl ⟨rfl, by simpa using hj.symm⟩
    · exact .inr ⟨hji, by simpa [update_of_ne hji] using hj⟩
  have hchild : ∀ j c, (n.insert i t).entries j = some c → Ok h c := by
    intro j c hj
    rcases hentries j c hj with ⟨-, rfl⟩ | ⟨-, hj⟩
    · exact ht.ok
    · exact hn.child j c hj
  have hother : ∀ j, j ≠ i → n.bmIsSet j = false →
      ∃ c, (n.insert i t).entries j = some c ∧ Marked h c := by
    intro j hji hj
    obtain ⟨c, hc, hm⟩ := hn.clear j hj
    exact ⟨c, by simp [update_of_ne hji, hc], hm⟩
  cases clear with
  | true =>
    refine ⟨hcount, hchild, fun j hj => ?_, fun j c hc hj => ?_⟩
    · by_cases hji : j = i
      · subst hji
        exact ⟨t, by simp, ht.marked rfl⟩
      · exact hother j hji (by simpa [hji] using hj)
    · rcases hentries j c hc with ⟨rfl, -⟩ | ⟨-, hc⟩
      · simp at hj
      · exact hn.set j c hc (by simp at hj; exact hj.1)
  | false =>
    refine ⟨hcount, hchild, fun j hj => ?_, fun j c hc hj => ?_⟩
    · by_cases hji : j = i
      · subst hji
        obtain ⟨c, hc, hm⟩ := hn.clear j hj
        exact ⟨t, by simp, ht.keeps c hc hm⟩
      · exact hother j hji hj
    · rcases hentries j c hc with ⟨rfl, rfl⟩ | ⟨-, hc⟩
      · exact ht.roomy rfl fun c0 hc0 => hn.set j c0 hc0 hj
      · exact hn.set j c hc hj

theorem enter_eq_some {c : Option (Node β)} {n : Node β} (h : enter c avail = some (n, avail')) :
    (c = some n ∧ avail' = avail) ∨ (c = none ∧ n = .create ∧ avail = avail' + 1) := by
  unfold enter at h
  split at h
  · cases h
    exact .inl ⟨rfl, rfl⟩
  · cases h
  · cases h
    exact .inr ⟨rfl, rfl, rfl⟩

theorem enter_ok (he : enter c avail = some (n, avail')) (hc : ∀ c0, c = some c0 → Ok (h + 1) c0) :
    n.Ok (Ok h) (Roomy h) (Marked h) := by
  rcases enter_eq_some he with ⟨rfl, -⟩ | ⟨-, rfl, -⟩
  · exact (hc n rfl).1
  · exact .create

theorem Inserted.up {n' : Node (Tree α h)} {t : Tree α h} {clear : Bool}
    (he : enter c avail = some (n, avail')) (hn : n.Ok (Ok h) (Roomy h) (Marked h))
    (ht : Inserted h (n.entries i) t clear)
    (hn' : n' = if clear then (n.insert i t).bmClear i else n.insert i t) :
    Inserted (h + 1) c n' (clear && n'.full) := by
  have hok : n'.Ok (Ok h) (Roomy h) (Marked h) := hn' ▸ ht.node hn
  have hi : n'.entries i = some t := by
    rw [hn']
    split <;> simp
  have hbits : ∀ j, n.bmIsSet j = false → n'.bmIsSet j = false := by
    intro j hj
    rw [hn']
    split <;> simp [hj]
  refine ⟨⟨hok, fun hempty => ?_⟩, fun hc => ?_, fun c0 hc0 hm => ?_, fun hc hroomy => ?_⟩
  · have := hok.counted.empty_iff.mp hempty i
    rw [hi] at this
    cases this
  · -- the bit of the slot was just cleared
    have hclear : clear = true := (Bool.and_eq_true_iff.mp hc).1
    exact ⟨i, by simp [hn', hclear]⟩
  · rcases enter_eq_some he with ⟨rfl, -⟩ | ⟨rfl, -, -⟩
    · obtain rfl := Option.some.inj hc0
      obtain ⟨j, hj⟩ := hm
      exact ⟨j, hbits j hj⟩
    · cases hc0
  · cases clear with
    | false =>
      -- the bitmap is that of the node before
      have hsame : ∀ j, n'.bmIsSet j = n.bmIsSet j := fun j => by simp [hn']
      rcases enter_eq_some he with ⟨rfl, -⟩ | ⟨-, rfl, -⟩
      · obtain ⟨j, hj⟩ := hroomy n rfl
        exact ⟨j, (hsame j).trans hj⟩
      · exact ⟨i, by rw [hsame, create_bm]⟩
    | true =>
      -- a slot is still free, and its bit is set
      have hfree : ∃ j, n'.entries j = none := by
        by_contra hall
        push Not at hall
        have hfull : n'.full := hok.counted.full_iff.mpr fun j => isSome_iff_ne_none.mpr (hall j)
        rw [hfull] at hc
        cases hc
      obtain ⟨j, hj⟩ := hfree
      refine ⟨j, ?_⟩
      by_contra hset
      obtain ⟨d, hd, -⟩ := hok.clear j (by simpa using hset)
      rw [hj] at hd
      cases hd

theorem afterInsert_eq_ok {n n' : Node β} {clear' : Bool} (h : n.afterInsert i o = .ok n' clear') :
    ∃ child clear, o = .ok child clear ∧
      n' = (if clear then (n.insert i child).bmClear i else n.insert i child) ∧
      clear' = (clear && n'.full) := by
  unfold afterInsert at h
  split at h
  · cases h
    exact ⟨_, _, rfl, rfl, rfl⟩
  all_goals cases h

theorem afterInsert_eq_busy {n : Node β} (h : n.afterInsert i o = .busy) : o = .busy := by
  unfold afterInsert at h
  split at h <;> cases h
  rfl

theorem afterInsert_eq_noRoom {n : Node β} (h : n.afterInsert i o = .noRoom k) : o = .noRoom k := by
  unfold afterInsert at h
  split at h <;> cases h
  rfl

theorem insertAt_inserted : ∀ {h avail : Nat} {c : Option (Tree α h)}
    {t : Tree α h} {clear : Bool}, (∀ c0, c = some c0 → Ok h c0) →
    insertAt v key h c avail = .ok t clear → Inserted h c t clear
  | 0, avail, none, t, clear, _, h => by
    cases h
    exact ⟨trivial, fun _ => trivial, nofun, nofun⟩
  | 0, avail, some c, t, clear, _, h => by cases h
  | h + 1, avail, c, t, clear, hc, hins => by
    rw [insertAt] at hins
    split at hins
    · cases hins
    rename_i n avail' he
    have hn := enter_ok he hc
    obtain ⟨child, cl, hchild, ht, rfl⟩ := afterInsert_eq_ok hins
    have hin : Inserted h (n.entries (index key h)) child cl :=
      insertAt_inserted (hn.child _) hchild
    exact hin.up he hn ht

theorem insertAt_nomem : ∀ {h avail : Nat} {c c' : Option (Tree α h)}
    {here : Bool}, (∀ c0, c = some c0 → Ok h c0) →
    insertAt v key h c avail = .nomem c' here → c' = c
  | 0, avail, none, c', here, _, h => by cases h
  | 0, avail, some c, c', here, _, h => by cases h
  | h + 1, avail, c, c', here, hc, hins => by
    rw [insertAt] at hins
    split at hins
    next he =>
      cases hins
      unfold enter at he
      split at he
      · cases he
      · rfl
      · cases he
    next n avail' he =>
      have hn := enter_ok he hc
      cases hchild : insertAt v key h (n.entries (index key h)) avail' with
      | nomem d dhere =>
        have hd : d = n.entries (index key h) :=
          insertAt_nomem (hn.child _) hchild
        simp only [hchild] at hins
        cases d with
        | none =>
          simp only [Node.afterInsert, Node.remove_self hd.symm] at hins
          cases hins
          rcases enter_eq_some he with ⟨rfl, -⟩ | ⟨rfl, rfl, -⟩
          · rw [if_neg (hc n rfl).2]
          · rfl
        | some d =>
          simp only [Node.afterInsert, Node.insert_self hd.symm] at hins
          cases hins
          rcases enter_eq_some he with ⟨rfl, -⟩ | ⟨rfl, rfl, -⟩
          · rfl
          · cases hd
      | _ => simp [hchild, Node.afterInsert] at hins

theorem insertAt_nomem_here {c' : Option (Tree α (h + 1))} {here : Bool}
    (hfree : n.entries (index key h) = none)
    (hins : insertAt v key (h + 1) (some n) avail = .nomem c' here) : here = true := by
  rw [insertAt] at hins
  simp only [enter, hfree] at hins
  cases hchild : insertAt v key h none avail with
  | nomem d dhere =>
    obtain rfl : d = none := insertAt_nomem nofun hchild
    simp only [hchild, afterInsert] at hins
    cases hins
    rfl
  | _ => simp [hchild, afterInsert] at hins

/-! ## Lookup after an insertion -/

theorem index_eq_iff : index j h = index k h ↔ digit 64 j h = digit 64 k h := Fin.ext_iff

theorem lookupAt_enter (he : enter c avail = some (n, avail')) :
    lookupAt key (h + 1) c = lookupAt key h (n.entries (index key h)) := by
  rcases enter_eq_some he with ⟨rfl, -⟩ | ⟨rfl, rfl, -⟩
  · rfl
  · cases h <;> rfl

theorem insertAt_lookup : ∀ {h avail : Nat} {c : Option (Tree α h)}
    {t : Tree α h} {clear : Bool}, insertAt v key h c avail = .ok t clear →
    lookupAt key h c = none ∧ ∀ k, lookupAt k h (some t) =
      if k % 64 ^ h = key % 64 ^ h then some v else lookupAt k h c
  | 0, avail, none, t, clear, h => by
    cases h
    exact ⟨rfl, fun k => (if_pos (by omega)).symm⟩
  | 0, avail, some c, t, clear, h => by cases h
  | h + 1, avail, c, t, clear, hins => by
    rw [insertAt] at hins
    split at hins
    · cases hins
    rename_i n avail' he
    obtain ⟨child, cl, hchild, ht, -⟩ := afterInsert_eq_ok hins
    obtain ⟨hfree, hsub⟩ := insertAt_lookup hchild
    refine ⟨(lookupAt_enter he).trans hfree, fun k => ?_⟩
    have hentries : t.entries = update n.entries (index key h) (some child) := by
      rw [ht]
      split <;> rfl
    have hiff := mod_pow_succ_eq_iff (b := 64) (by decide) k key h
    rw [← index_eq_iff] at hiff
    rw [lookupAt_enter he]
    show lookupAt k h (t.entries (index k h)) = _
    rw [hentries]
    by_cases hk : index k h = index key h
    · rw [hk, update_self, hsub k]
      simp [hiff, hk]
    · rw [update_of_ne hk, if_neg (fun h => hk (hiff.mp h).1)]

theorem insertAt_busy : ∀ {h avail : Nat} {c : Option (Tree α h)},
    insertAt v key h c avail = .busy → lookupAt key h c ≠ none
  | 0, avail, none, h => by cases h
  | 0, avail, some c, h => nofun
  | h + 1, avail, c, hins => by
    rw [insertAt] at hins
    split at hins
    · cases hins
    rename_i n avail' he
    rw [lookupAt_enter he]
    exact insertAt_busy (afterInsert_eq_busy hins)

theorem insertAt_ne_noRoom : ∀ {h avail : Nat} {c : Option (Tree α h)},
    insertAt v key h c avail ≠ .noRoom k
  | 0, avail, none => nofun
  | 0, avail, some c => nofun
  | h + 1, avail, c => by
    rw [insertAt]
    split
    · exact nofun
    · exact fun hins => insertAt_ne_noRoom (afterInsert_eq_noRoom hins)

/-! ## Allocation -/

def isOpen (key : Nat) : (h : Nat) → Option (Tree α h) → Bool
  | 0, c => c.isNone
  | _ + 1, none => true
  | h + 1, some n => Node.bmIsSet n (index key h) && isOpen key h (Node.entries n (index key h))

theorem isOpen_enter (he : enter c avail = some (n, avail')) :
    isOpen key (h + 1) c = (n.bmIsSet (index key h) && isOpen key h (n.entries (index key h))) := by
  rcases enter_eq_some he with ⟨rfl, -⟩ | ⟨rfl, rfl, -⟩
  · rfl
  · rw [create_bm]
    cases h <;> rfl

theorem lookupAt_of_isOpen : ∀ {h : Nat} {c : Option (Tree α h)},
    isOpen key h c → lookupAt key h c = none
  | 0, c, h => isNone_iff_eq_none.mp h
  | _ + 1, none, _ => rfl
  | h + 1, some n, hopen => by
    have hsub : isOpen key h (Node.entries n (index key h)) := (Bool.and_eq_true_iff.mp hopen).2
    exact lookupAt_of_isOpen (h := h) hsub

theorem isOpen_congr : ∀ {h : Nat} {c : Option (Tree α h)}, j % 64 ^ h = k % 64 ^ h →
    isOpen j h c = isOpen k h c
  | 0, _, _ => rfl
  | _ + 1, none, _ => rfl
  | h + 1, some n, he => by
    obtain ⟨hd, hm⟩ := (mod_pow_succ_eq_iff (by decide) j k h).mp he
    rw [isOpen, isOpen, index_eq_iff.mpr hd, isOpen_congr hm]

theorem insertAt_congr : ∀ {h avail : Nat} {c : Option (Tree α h)},
    j % 64 ^ h = k % 64 ^ h → insertAt v j h c avail = insertAt v k h c avail
  | 0, _, none, _ => rfl
  | 0, _, some _, _ => rfl
  | h + 1, avail, c, he => by
    obtain ⟨hd, hm⟩ := (mod_pow_succ_eq_iff (by decide) j k h).mp he
    rw [insertAt, insertAt]
    split
    · rfl
    · simp only [index_eq_iff.mpr hd, insertAt_congr hm]
      rfl

theorem index_join {low : Nat} (i : Fin 64) (hlow : low < 64 ^ h) :
    index (i * 64 ^ h + low) h = i ∧ (i * 64 ^ h + low) % 64 ^ h = low % 64 ^ h ∧
      i * 64 ^ h + low < 64 ^ (h + 1) := by
  have hp : 0 < 64 ^ h := Nat.pow_pos (by decide)
  have hdiv : (i * 64 ^ h + low) / 64 ^ h = i := by
    rw [Nat.mul_comm, Nat.mul_add_div hp, Nat.div_eq_of_lt hlow, Nat.add_zero]
  refine ⟨Fin.ext ?_, ?_, ?_⟩
  · show digit 64 (i * 64 ^ h + low) h = i
    rw [digit, hdiv, Nat.mod_eq_of_lt i.isLt]
  · rw [Nat.mul_comm, Nat.mul_add_mod]
  · have hi : (i : Nat) * 64 ^ h ≤ 63 * 64 ^ h := Nat.mul_le_mul_right _ (by omega)
    omega

theorem index_lt_or {low : Nat} (hlow : low < 64 ^ h) (hk : k < i * 64 ^ h + low) :
    index k h < i ∨ (index k h = i ∧ k % 64 ^ h < low) := by
  have hp : 0 < 64 ^ h := Nat.pow_pos (by decide)
  have hsplit : k = 64 ^ h * (k / 64 ^ h) + k % 64 ^ h := (Nat.div_add_mod k _).symm
  have hmod := Nat.mod_lt k hp
  have hdiv : k / 64 ^ h ≤ i := by
    by_contra hgt
    have : 64 ^ h * (i + 1) ≤ 64 ^ h * (k / 64 ^ h) := Nat.mul_le_mul_left _ (by omega)
    rw [Nat.mul_add, Nat.mul_comm] at this
    omega
  have hidx : (index k h : Nat) = k / 64 ^ h := by
    show k / 64 ^ h % 64 = _
    exact Nat.mod_eq_of_lt (by omega)
  rcases Nat.lt_or_eq_of_le hdiv with hlt | heq
  · exact .inl (by rw [Fin.lt_def, hidx]; exact hlt)
  · refine .inr ⟨Fin.ext (hidx.trans heq), ?_⟩
    rw [heq, Nat.mul_comm] at hsplit
    omega

theorem allocAt_eq (v : α) : ∀ {h : Nat} (avail : Nat) {c : Option (Tree α h)},
    (∀ c0, c = some c0 → Ok h c0 ∧ Roomy h c0) →
    ∃ key, allocAt v h c avail = (insertAt v key h c avail, key) ∧ key < 64 ^ h ∧
      isOpen key h c ∧ ∀ k < key, isOpen k h c = false
  | 0, avail, none, _ => ⟨0, rfl, by simp, rfl, fun k hk => absurd hk (by omega)⟩
  | 0, avail, some c, hc => (hc c rfl).2.elim
  | h + 1, avail, c, hc => by
    cases he : enter c avail with
    | none =>
      have hnone : c = none := by
        cases c with
        | none => rfl
        | some n => cases he
      refine ⟨0, ?_, Nat.pow_pos (by decide), by rw [hnone]; rfl, fun k hk => absurd hk (by omega)⟩
      rw [allocAt, insertAt, he]
    | some r =>
      obtain ⟨n, avail'⟩ := r
      have hn := enter_ok he fun c0 hc0 => (hc c0 hc0).1
      have hroomy : ∃ i, n.bmIsSet i := by
        rcases enter_eq_some he with ⟨rfl, -⟩ | ⟨-, rfl, -⟩
        · exact (hc n rfl).2
        · exact ⟨0, create_bm⟩
      cases hfirst : n.bmFirst with
      | none =>
        obtain ⟨i, hi⟩ := hroomy
        rw [bmIsSet, firstSet_eq_none.mp hfirst i] at hi
        cases hi
      | some i =>
        obtain ⟨hset, hbelow⟩ := firstSet_eq_some hfirst
        have hchild : ∀ c0, n.entries i = some c0 → Ok h c0 ∧ Roomy h c0 :=
          fun c0 hc0 => ⟨hn.child i c0 hc0, hn.set i c0 hc0 hset⟩
        obtain ⟨low, hsub, hlow, hopen, hleast⟩ := allocAt_eq v avail' hchild
        obtain ⟨hidx, hmod, hlt⟩ := index_join i hlow
        refine ⟨i * 64 ^ h + low, ?_, hlt, ?_, fun k hk => ?_⟩
        · rw [allocAt, insertAt, he]
          simp only [hfirst, hsub, hidx]
          rw [insertAt_congr hmod]
        · rw [isOpen_enter he, hidx, isOpen_congr hmod, hopen, Bool.and_true]
          exact hset
        · rw [isOpen_enter he]
          rcases index_lt_or hlow hk with hslot | ⟨hslot, hrest⟩
          · have : n.bmIsSet (index k h) = false := hbelow _ hslot
            rw [this, Bool.false_and]
          · rw [hslot, isOpen_congr (Nat.mod_mod k _).symm, hleast _ hrest, Bool.and_false]

theorem allocAt_noRoom (v : α) : ∀ {h : Nat} (avail : Nat) {t : Tree α h}, ¬ Roomy h t →
    allocAt v h (some t) avail = (.noRoom h, 0) ∧ ∀ k, isOpen k h (some t) = false
  | 0, _, _, _ => ⟨rfl, fun _ => rfl⟩
  | h + 1, avail, n, hn => by
    have hbits : ∀ i, Node.bmIsSet n i = false := by simpa [Roomy] using hn
    have hfirst : bmFirst n = none := firstSet_eq_none.mpr hbits
    refine ⟨?_, fun k => ?_⟩
    · rw [allocAt]
      simp only [enter, hfirst]
    · rw [isOpen, hbits, Bool.false_and]

/-! ## Removal -/

structure Removed (h : Nat) (t : Tree α h) (r : Removal α (Tree α h)) : Prop where
  ok : ∀ t₁, r.left = some t₁ → Ok h t₁
  fresh : ∀ t₁, r.left = some t₁ → r.up → Roomy h t₁
  marked : ∀ t₁, r.left = some t₁ → r.up = false → Marked h t → Marked h t₁
  roomy : ∀ t₁, r.left = some t₁ → Roomy h t → Roomy h t₁
  gone : r.left = none → r.up = false → ¬ Marked h t

namespace Node

variable {n : Node β} {i j : Fin 64} {up : Bool}

theorem raise_bm : (n.raise i up).bmIsSet j = (n.bmIsSet j || (up && decide (j = i))) := by
  cases up <;> simp [raise]

theorem raise_counted (h : n.Counted) (i : Fin 64) (up : Bool) : (n.raise i up).Counted := by
  cases up <;> exact h

@[simp] theorem raise_entries : (n.raise i up).entries = n.entries := by
  cases up <;> rfl

end Node

section

variable {h : Nat} {n : Node (Tree α h)} {i : Fin 64} {c : Tree α h} {r : Removal α (Tree α h)}
  {lowest : Bool}

/-- The bit of the slot is raised, by `rdxtree_remove_bm_set`. -/
def Removal.raises (r : Removal α (Tree α h)) (n : Node (Tree α h)) (i : Fin 64) (lowest : Bool) : Bool :=
  r.up && (lowest || !n.bmIsSet i)

section

variable (hr : Removed h c r) (hn : n.Ok (Ok h) (Roomy h) (Marked h)) (hi : n.entries i = some c)
include hr hn hi

theorem Removed.of_clear (hclear : (n.raise i (r.raises n i lowest)).bmIsSet i = false) :
    ∃ t1, r.left = some t1 ∧ Marked h t1 := by
  rw [raise_bm, raises] at hclear
  have hbit : n.bmIsSet i = false := by
    cases hb : n.bmIsSet i with
    | false => rfl
    | true => simp [hb] at hclear
  have hup : r.up = false := by simpa [hbit] using hclear
  obtain ⟨c', hc', hm⟩ := hn.clear i hbit
  obtain rfl : c = c' := Option.some.inj (hi.symm.trans hc')
  cases hleft : r.left with
  | none => exact absurd hm (hr.gone hleft hup)
  | some t1 => exact ⟨t1, rfl, hr.marked t1 hleft hup hm⟩

theorem Removed.of_set (hset : (n.raise i (r.raises n i lowest)).bmIsSet i) {t1 : Tree α h}
    (ht1 : r.left = some t1) : Roomy h t1 := by
  by_cases hup : r.up
  · exact hr.fresh t1 ht1 hup
  · have hbit : n.bmIsSet i := by simpa [raise_bm, raises, hup] using hset
    exact hr.roomy t1 ht1 (hn.set i c hi hbit)

theorem Removed.node {n' : Node (Tree α h)} (hcount : n'.Counted)
    (hbm : ∀ j, n'.bmIsSet j = (n.raise i (r.raises n i lowest)).bmIsSet j)
    (hentries : n'.entries = update n.entries i r.left) : n'.Ok (Ok h) (Roomy h) (Marked h) := by
  have hother : ∀ j, j ≠ i → n'.entries j = n.entries j ∧ n'.bmIsSet j = n.bmIsSet j := by
    intro j hji
    rw [hentries, hbm, raise_bm]
    simp [hji]
  have hat : n'.entries i = r.left := by rw [hentries, update_self]
  refine ⟨hcount, fun j d hd => ?_, fun j hj => ?_, fun j d hd hj => ?_⟩ <;>
    by_cases hji : j = i
  · subst hji
    exact hr.ok d (hat ▸ hd)
  · exact hn.child j d ((hother j hji).1 ▸ hd)
  · subst hji
    rw [hat]
    exact hr.of_clear hn hi ((hbm j) ▸ hj)
  · rw [(hother j hji).1]
    exact hn.clear j ((hother j hji).2 ▸ hj)
  · subst hji
    exact hr.of_set hn hi ((hbm j) ▸ hj) (hat ▸ hd)
  · exact hn.set j d ((hother j hji).1 ▸ hd) ((hother j hji).2 ▸ hj)

end

theorem Removed.of_bits {n' : Node (Tree α h)} {left : Option (Node (Tree α h))} {here : Bool}
    {v : α} (hleft : left = some n' ∨ left = none)
    (hbm : ∀ j, n'.bmIsSet j = (n.raise i (r.raises n i lowest)).bmIsSet j)
    (hok : left = some n' → Ok (h + 1) n')
    (hgone : left = none → r.raises n i lowest = false → ¬ Marked (h + 1) n) :
    Removed (h + 1) n ⟨v, left, r.raises n i lowest, here⟩ := by
  refine ⟨fun t1 ht1 => ?_, fun t1 ht1 hup => ?_, fun t1 ht1 hup hm => ?_, fun t1 ht1 hroomy => ?_,
    hgone⟩ <;> obtain rfl | rfl := hleft <;> try cases ht1
  · exact hok rfl
  · exact ⟨i, by rw [hbm, raise_bm]; simp [show r.raises n i lowest = true from hup]⟩
  · obtain ⟨j, hj⟩ := hm
    exact ⟨j, by rw [hbm, raise_bm]; simp [hj, show r.raises n i lowest = false from hup]⟩
  · obtain ⟨j, hj⟩ := hroomy
    exact ⟨j, by rw [hbm, raise_bm]; simp [hj]⟩

theorem Removed.up (hr : Removed h c r) (hn : Ok (h + 1) n) (hi : n.entries i = some c) :
    Removed (h + 1) n (n.afterRemove i lowest r) := by
  have hcount := raise_counted hn.1.counted i (r.raises n i lowest)
  unfold afterRemove
  split
  next child hleft =>
    have hok := hr.node hn.1 hi (hcount.insert i child) (fun _ => rfl) (by simp [hleft])
    refine .of_bits (.inl rfl) (fun _ => rfl) (fun _ => ⟨hok, fun hempty => ?_⟩) nofun
    have := hok.counted.empty_iff.mp hempty i
    simp at this
  next hleft =>
    have hok := hr.node hn.1 hi (hcount.remove i) (fun _ => rfl) (by simp [hleft])
    have hleft' : ∀ m : Node (Tree α h), (if m.empty then none else some m) = some m ∨
        (if m.empty then none else some m) = none := by
      intro m
      split
      · exact .inr rfl
      · exact .inl rfl
    refine .of_bits (hleft' _) (fun _ => rfl) (fun hs => ?_) (fun hnone hup => ?_)
    · split at hs
      · cases hs
      next hne => exact ⟨hok, hne⟩
    · -- the node is gone: its only entry was this one, so no bit was clear
      rintro ⟨j, hj⟩
      have hempty : ((n.raise i (r.raises n i lowest)).remove i).empty := by
        split at hnone
        next he => exact he
        · cases hnone
      have hclear : ((n.raise i (r.raises n i lowest)).remove i).bmIsSet j = false := by
        rw [remove_bm, raise_bm, hj, hup]
        rfl
      obtain ⟨d, hd, -⟩ := hok.clear j hclear
      rw [hok.counted.empty_iff.mp hempty j] at hd
      cases hd

end

theorem removeAt_succ {r : Removal α (Tree α (h + 1))}
    (hrem : removeAt key (h + 1) (some n) = some r) :
    ∃ r0, removeAt key h (n.entries (index key h)) = some r0 ∧
      r = n.afterRemove (index key h) (h == 0) r0 := by
  obtain ⟨r0, hr0, hr⟩ := map_eq_some_iff.mp hrem
  exact ⟨r0, hr0, hr.symm⟩

theorem removeAt_some {c : Option (Tree α h)} {r : Removal α (Tree α h)}
    (hrem : removeAt key h c = some r) : ∃ t, c = some t := by
  cases c with
  | some t => exact ⟨t, rfl⟩
  | none => cases h <;> cases hrem

theorem removeAt_removed : ∀ {h : Nat} {t : Tree α h} {r : Removal α (Tree α h)},
    Ok h t → removeAt key h (some t) = some r → Removed h t r
  | 0, t, r, _, hrem => by
    cases hrem
    exact ⟨nofun, nofun, nofun, nofun, nofun⟩
  | h + 1, n, r, hn, hrem => by
    obtain ⟨r0, hr0, rfl⟩ := removeAt_succ hrem
    obtain ⟨c, hc⟩ := removeAt_some hr0
    have hr : Removed h c r0 := removeAt_removed (hn.1.child _ c hc) (hc ▸ hr0)
    exact hr.up hn hc

theorem afterRemove_left {n : Node β} {lowest : Bool} {r : Removal α β} (hn : n.Counted) :
    ((n.afterRemove i lowest r).left = none ∧ ∀ j, update n.entries i r.left j = none) ∨
      ∃ n', (n.afterRemove i lowest r).left = some n' ∧ n'.entries = update n.entries i r.left := by
  unfold afterRemove
  simp only
  split
  next child hleft =>
    refine .inr ⟨_, rfl, ?_⟩
    rw [insert_entries, raise_entries, hleft]
  next hleft =>
    rw [hleft]
    split
    next hempty =>
      refine .inl ⟨rfl, fun j => ?_⟩
      have hall := ((raise_counted hn i _).remove i).empty_iff.mp hempty j
      rwa [remove_entries, raise_entries] at hall
    next =>
      refine .inr ⟨_, rfl, ?_⟩
      rw [remove_entries, raise_entries]

theorem lookupAt_none (k h : Nat) : lookupAt k h (none : Option (Tree α h)) = none := by
  cases h <;> rfl

theorem lookupAt_afterRemove {lowest : Bool} {r : Removal α (Tree α h)} (hn : n.Counted) :
    lookupAt k (h + 1) (n.afterRemove i lowest r).left =
      lookupAt k h (update n.entries i r.left (index k h)) := by
  rcases afterRemove_left hn with ⟨hleft, hnone⟩ | ⟨n', hleft, hentries⟩
  · rw [hleft, hnone, lookupAt_none]
    rfl
  · rw [hleft, ← hentries]
    rfl

theorem removeAt_lookup : ∀ {h : Nat} {t : Tree α h} {r : Removal α (Tree α h)},
    Ok h t → removeAt key h (some t) = some r →
    lookupAt key h (some t) = some r.value ∧ ∀ k, lookupAt k h r.left =
      if k % 64 ^ h = key % 64 ^ h then none else lookupAt k h (some t)
  | 0, t, r, _, hrem => by
    cases hrem
    exact ⟨rfl, fun k => (if_pos (by omega)).symm⟩
  | h + 1, n, r, hn, hrem => by
    obtain ⟨r0, hr0, rfl⟩ := removeAt_succ hrem
    obtain ⟨c, hc⟩ := removeAt_some hr0
    rw [hc] at hr0
    obtain ⟨hvalue, hsub⟩ := removeAt_lookup (hn.1.child _ c hc) hr0
    have hiff := fun k => mod_pow_succ_eq_iff (b := 64) (by decide) k key h
    have hold : ∀ k, lookupAt k (h + 1) (some n) = lookupAt k h (Node.entries n (index k h)) :=
      fun _ => rfl
    refine ⟨?_, fun k => ?_⟩
    · rw [hold, hc, hvalue]
      unfold Node.afterRemove
      split <;> rfl
    · have hk' := hiff k
      rw [← index_eq_iff] at hk'
      rw [lookupAt_afterRemove hn.1.counted, hold]
      by_cases hk : index k h = index key h
      · rw [hk, update_self, hsub k, hc]
        simp only [hk', hk, true_and]
      · rw [update_of_ne hk, if_neg (fun h => hk (hk'.mp h).1)]

theorem removeAt_eq_none : ∀ {h : Nat} {c : Option (Tree α h)},
    removeAt key h c = none → lookupAt key h c = none
  | 0, _, hrem => map_eq_none_iff.mp hrem
  | _ + 1, none, _ => rfl
  | h + 1, some n, hrem => by
    have hsub : removeAt key h (Node.entries n (index key h)) = none := map_eq_none_iff.mp hrem
    exact removeAt_eq_none (h := h) hsub

end Mach.Kern.Radix
