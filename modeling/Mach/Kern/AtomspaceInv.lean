import Mach.Kern.Atomspace
import Mach.Lib.Pool

/-!
# The integrity of an atom space

Two changes make up every run: a slot that holds no valid atom receives a new one
(`Space.file`), and a valid atom is taken out of its slot. Both are described by what they do
to `At`, the valid atoms and their slots; `Inv` is carried along from there.

Handles are given away in order, so each one in use is below `next_handle` until that has
wrapped around to 0; a stored name is the whole name as long as names fit.
-/

namespace Mach.Kern.Atomspace

open Mach.Lib List Option Atom AtomType CString Space Nat

/-! ## Slots -/

variable {s s' : Space} {i j : Nat} {a b : Atom} {handle : Nat}

theorem AtomType.value_lt (t : AtomType) : t.value < 128 := by
  cases t <;> decide

theorem AtomType.isLink_eq (t : AtomType) : t.isLink = !t.isNode := by
  cases t <;> rfl

theorem getElem?_put {l : List Atom} (hi : i ≤ l.length) (j : Nat) :
    (put l i a)[j]? = if j = i then some a else l[j]? := by
  unfold put
  split
  next hlt =>
    rw [getElem?_set]
    by_cases hj : j = i
    · subst hj
      rw [if_pos rfl, if_pos rfl, if_pos hlt]
    · rw [if_neg (Ne.symm hj), if_neg hj]
  next hge =>
    have hil : i = l.length := by omega
    subst hil
    rw [getElem?_append]
    by_cases hj : j = l.length
    · subst hj
      simp
    · rw [if_neg hj]
      split
      · rfl
      next hge' =>
        rw [getElem?_eq_none (by simp; omega), getElem?_eq_none (by omega)]

theorem alloc_free (hflags : ∀ a ∈ s.atoms, a.flags.removed = !a.flags.valid)
    (h : atomspaceAllocAtom s = some i) :
    i ≤ s.atoms.length ∧ ∀ a, s.atoms[i]? = some a → a.flags.valid = false := by
  unfold atomspaceAllocAtom at h
  split at h
  next k hk =>
    cases h
    obtain ⟨hlt, hrem, -⟩ := findIdx?_eq_some_iff_getElem.mp hk
    refine ⟨Nat.le_of_lt hlt, ?_⟩
    intro a ha
    rw [getElem?_eq_getElem hlt] at ha
    cases ha
    have := hflags _ (getElem_mem hlt)
    rw [hrem] at this
    simpa using this.symm
  · split at h
    · cases h
    cases h
    refine ⟨(Nat.le_refl _), ?_⟩
    intro a ha
    rw [getElem?_eq_none (Nat.le_refl _)] at ha
    cases ha

theorem countP_put {l : List Atom} {p : Atom → Bool} (hold : ∀ b, l[i]? = some b → p b = false) :
    (put l i a).countP p = l.countP p + (p a).toNat := by
  unfold put
  split
  next hlt =>
    have hb := getElem?_eq_getElem hlt
    have := Pool.countP_set hb p a
    rw [hold _ hb] at this
    simpa using this
  · exact Pool.countP_append p l a

theorem getAtom_isSome (hpos : ∀ i a, s.At i a → 0 < a.handle) :
    (atomspaceGetAtom s handle).isSome ↔ ∃ i a, s.At i a ∧ a.handle = handle := by
  unfold atomspaceGetAtom
  constructor
  · intro hsome
    split at hsome
    · cases hsome
    obtain ⟨i, hi⟩ := isSome_iff_exists.mp hsome
    obtain ⟨hlt, hans, -⟩ := List.findIdx?_eq_some_iff_getElem.mp hi
    unfold answers at hans
    simp only [Bool.and_eq_true, decide_eq_true_eq] at hans
    exact ⟨i, s.atoms[i], ⟨List.getElem?_eq_getElem hlt, hans.2⟩, hans.1⟩
  · rintro ⟨i, a, ha, rfl⟩
    have hne : a.handle ≠ handleInvalid := Nat.ne_of_gt (hpos i a ha)
    rw [if_neg hne, List.findIdx?_isSome, List.any_eq_true]
    refine ⟨a, mem_of_getElem? ha.1, ?_⟩
    unfold answers
    simp [ha.2]

theorem getAtom_at (h : atomspaceGetAtom s handle = some i) :
    ∃ a, s.At i a ∧ a.handle = handle := by
  unfold atomspaceGetAtom at h
  split at h
  · cases h
  obtain ⟨hlt, hans, -⟩ := findIdx?_eq_some_iff_getElem.mp h
  unfold answers at hans
  simp only [Bool.and_eq_true, decide_eq_true_eq] at hans
  exact ⟨s.atoms[i], ⟨getElem?_eq_getElem hlt, hans.2⟩, hans.1⟩

theorem key_at (f : Atom → Nat) (h : s.At i a) : s.key f i = some (f a) := by
  unfold key
  rw [h.1, bind_some, if_pos h.2]

theorem key_eq_some {f : Atom → Nat} {k : Nat} (h : s.key f i = some k) :
    ∃ a, s.At i a ∧ f a = k := by
  obtain ⟨a, ha, hk⟩ := bind_eq_some_iff.mp h
  split at hk
  next hv =>
    cases hk
    exact ⟨a, ⟨ha, hv⟩, rfl⟩
  · cases hk

theorem key_eq_none (f : Atom → Nat) (h : ∀ a, s.atoms[i]? = some a → a.flags.valid = false) :
    s.key f i = none := by
  cases hk : s.key f i with
  | none => rfl
  | some k =>
    obtain ⟨a, ha, -⟩ := key_eq_some hk
    have := h a ha.1
    rw [ha.2] at this
    cases this

/-! ## The invariant -/

structure Inv (s : Space) : Prop where
  handles : ∀ i j a b, s.At i a → s.At j b → a.handle = b.handle → i = j
  names : ∀ i j a b, s.At i a → s.At j b → a.type.isNode = true → a.type = b.type →
    a.name = b.name → i = j
  hashTable : Index.Files s.hashTable (s.key Atom.hash)
  typeIndex : Index.Files s.typeIndex (s.key (·.type.value))
  nodeCount : s.nodeCount = s.atoms.countP fun a => a.flags.valid && a.type.isNode
  linkCount : s.linkCount = s.atoms.countP fun a => a.flags.valid && a.type.isLink
  outgoing : ∀ i a, s.At i a → ∀ h ∈ a.outgoing, ∃ j b, s.At j b ∧ b.handle = h
  flags : ∀ a ∈ s.atoms, a.flags.removed = !a.flags.valid
  /-- Handles are not 0, and below the next one as long as that has not wrapped around. -/
  given : ∀ i a, s.At i a → 0 < a.handle ∧ (s.nextHandle = 0 ∨ a.handle < s.nextHandle)
  next : s.nextHandle < 2 ^ 32
  hashed : ∀ i a, s.At i a → a.type.isNode = true → a.hash = atomHashName a.name a.type
  hash : ∀ i a, s.At i a → a.hash < 256

theorem inv_create : Inv atomspaceCreate := by
  have hat : ∀ i a, ¬ atomspaceCreate.At i a := by
    rintro i a ⟨ha, -⟩
    simp [atomspaceCreate] at ha
  have hkey : ∀ f i, atomspaceCreate.key f i = none := by
    intro f i
    simp [key, atomspaceCreate]
  have hnone : ∀ {P : Nat → Atom → Prop} i a, atomspaceCreate.At i a → P i a :=
    fun i a ha => absurd ha (hat i a)
  constructor
  · exact fun i j a b ha => absurd ha (hat i a)
  · exact fun i j a b ha => absurd ha (hat i a)
  · exact Index.files_empty.congr (hkey _)
  · exact Index.files_empty.congr (hkey _)
  · rfl
  · rfl
  · exact hnone
  · exact fun a ha => absurd ha not_mem_nil
  · exact hnone
  · decide
  · exact hnone
  · exact hnone

theorem atomHashName_lt (name : CString) (type : AtomType) : atomHashName name type < 256 := by
  unfold atomHashName
  exact mod_lt _ (by decide)

theorem atomHashLink_lt (outgoing : List Nat) (type : AtomType) :
    atomHashLink outgoing type < 256 := by
  unfold atomHashLink
  exact mod_lt _ (by decide)

/-! ## A new atom -/

/-- An atom that may be filed in a slot: it takes the next handle, its name is not in use and
its outgoing set is valid. -/
structure Fresh (s : Space) (a : Atom) : Prop where
  valid : a.flags = ⟨true, false⟩
  handle : a.handle = s.nextHandle
  next : s.nextHandle ≠ 0
  name : a.type.isNode = true → a.hash = atomHashName a.name a.type ∧
    ∀ j b, s.At j b → b.type = a.type → b.name ≠ a.name
  hash : a.hash < 256
  outgoing : ∀ h ∈ a.outgoing, ∃ j b, s.At j b ∧ b.handle = h

theorem at_file (hi : i ≤ s.atoms.length) (hv : a.flags = ⟨true, false⟩) :
    (s.file i a).At j b ↔ j = i ∧ b = a ∨ j ≠ i ∧ s.At j b := by
  unfold Space.At file
  rw [getElem?_put hi]
  by_cases hj : j = i
  · rw [if_pos hj, some_inj]
    constructor
    · rintro ⟨rfl, -⟩
      exact .inl ⟨hj, rfl⟩
    · rintro (⟨-, rfl⟩ | ⟨hne, -⟩)
      · exact ⟨rfl, by rw [hv]⟩
      · exact absurd hj hne
  · rw [if_neg hj]
    constructor
    · intro h
      exact .inr ⟨hj, h⟩
    · rintro (⟨he, -⟩ | ⟨-, h⟩)
      · exact absurd he hj
      · exact h

theorem key_file_of_ne (hi : i ≤ s.atoms.length) (f : Atom → Nat) (hj : j ≠ i) :
    (s.file i a).key f j = s.key f j := by
  unfold key file
  rw [getElem?_put hi, if_neg hj]

section

variable (hinv : Inv s) (halloc : atomspaceAllocAtom s = some i) (hf : Fresh s a)
include hinv halloc hf

theorem files_file : Index.Files (s.file i a).hashTable ((s.file i a).key Atom.hash) ∧
      Index.Files (s.file i a).typeIndex ((s.file i a).key (·.type.value)) := by
  obtain ⟨hi, hfree⟩ := alloc_free hinv.flags halloc
  have hat : (s.file i a).At i a := (at_file hi hf.valid).mpr (.inl ⟨rfl, rfl⟩)
  constructor
  · exact hinv.hashTable.enter (key_eq_none _ hfree) (key_at _ hat)
      fun j hj => key_file_of_ne hi _ hj
  · have ht : (s.file i a).typeIndex = Index.enter s.typeIndex a.type.value i :=
      if_pos a.type.value_lt
    rw [ht]
    exact hinv.typeIndex.enter (key_eq_none _ hfree) (key_at _ hat)
      fun j hj => key_file_of_ne hi _ hj

theorem inv_file {nodes links : Nat} (hnodes : nodes = s.nodeCount + (a.type.isNode).toNat)
    (hlinks : links = s.linkCount + (a.type.isLink).toNat) :
    Inv { s.file i a with nodeCount := nodes, linkCount := links } := by
  obtain ⟨hi, hfree⟩ := alloc_free hinv.flags halloc
  have hat : ∀ {j b}, (s.file i a).At j b → j = i ∧ b = a ∨ j ≠ i ∧ s.At j b :=
    fun {j b} => (at_file hi hf.valid).mp
  have hkeep : ∀ {h}, (∃ j b, s.At j b ∧ b.handle = h) →
      ∃ j b, (s.file i a).At j b ∧ b.handle = h := by
    rintro h ⟨j, b, hb, rfl⟩
    have hj : j ≠ i := by
      rintro rfl
      have := hfree b hb.1
      rw [hb.2] at this
      cases this
    exact ⟨j, b, (at_file hi hf.valid).mpr (.inr ⟨hj, hb⟩), rfl⟩
  -- a handle in use is not the next one
  have hnew : ∀ j b, s.At j b → b.handle ≠ a.handle := by
    intro j b hb heq
    obtain ⟨-, h0 | hlt⟩ := hinv.given j b hb
    · exact hf.next h0
    · rw [heq, hf.handle] at hlt
      exact Nat.lt_irrefl _ hlt
  have hcount : ∀ q : AtomType → Bool,
      (put s.atoms i a).countP (fun a => a.flags.valid && q a.type) =
        s.atoms.countP (fun a => a.flags.valid && q a.type) + (q a.type).toNat := by
    intro q
    rw [countP_put, hf.valid, Bool.true_and]
    intro b hb
    rw [hfree b hb, Bool.false_and]
  obtain ⟨hhash, htype⟩ := files_file hinv halloc hf
  constructor
  · intro j k b c hb hc heq
    rcases hat hb with ⟨rfl, rfl⟩ | ⟨-, hb'⟩ <;> rcases hat hc with ⟨rfl, rfl⟩ | ⟨-, hc'⟩
    · rfl
    · exact absurd heq.symm (hnew k c hc')
    · exact absurd heq (hnew j b hb')
    · exact hinv.handles j k b c hb' hc' heq
  · intro j k b c hb hc hn ht heq
    rcases hat hb with ⟨rfl, rfl⟩ | ⟨-, hb'⟩ <;> rcases hat hc with ⟨rfl, rfl⟩ | ⟨-, hc'⟩
    · rfl
    · exact absurd heq.symm ((hf.name hn).2 k c hc' ht.symm)
    · exact absurd heq ((hf.name (ht ▸ hn)).2 j b hb' ht)
    · exact hinv.names j k b c hb' hc' hn ht heq
  · exact hhash
  · exact htype
  · rw [hnodes, hinv.nodeCount]
    exact (hcount isNode).symm
  · rw [hlinks, hinv.linkCount]
    exact (hcount isLink).symm
  · intro j b hb
    rcases hat hb with ⟨rfl, rfl⟩ | ⟨-, hb⟩
    · exact fun h hh => hkeep (hf.outgoing h hh)
    · exact fun h hh => hkeep (hinv.outgoing j b hb h hh)
  · intro b hb
    obtain ⟨j, hj⟩ := mem_iff_getElem?.mp hb
    rw [show (_ : Space).atoms = put s.atoms i a from rfl, getElem?_put hi] at hj
    split at hj
    · cases hj
      rw [hf.valid]
      rfl
    · exact hinv.flags b (mem_of_getElem? hj)
  · intro j b hb
    have hnext := hinv.next
    have hpos := Nat.pos_of_ne_zero hf.next
    show _ ∧ ((s.nextHandle + 1) % 2 ^ 32 = 0 ∨ b.handle < (s.nextHandle + 1) % 2 ^ 32)
    have hle : 0 < b.handle ∧ b.handle ≤ s.nextHandle := by
      rcases hat hb with ⟨rfl, rfl⟩ | ⟨-, hb⟩
      · rw [hf.handle]
        exact ⟨hpos, (Nat.le_refl _)⟩
      · obtain ⟨h0, hz | hlt⟩ := hinv.given j b hb
        · exact absurd hz hf.next
        · exact ⟨h0, Nat.le_of_lt hlt⟩
    refine ⟨hle.1, ?_⟩
    omega
  · exact Nat.mod_lt _ (by decide)
  · intro j b hb hn
    rcases hat hb with ⟨rfl, rfl⟩ | ⟨-, hb⟩
    · exact (hf.name hn).1
    · exact hinv.hashed j b hb hn
  · intro j b hb
    rcases hat hb with ⟨rfl, rfl⟩ | ⟨-, hb⟩
    · exact hf.hash
    · exact hinv.hash j b hb

end

/-! ## Finding a node -/

theorem holds_iff {p : Atom → Bool} : s.holds p i = true ↔ ∃ a, s.atoms[i]? = some a ∧ p a := by
  unfold holds
  cases s.atoms[i]? with
  | none => simp
  | some a => simp

variable {type : AtomType} {name : CString}

theorem isNamed_iff :
    a.isNamed type name = true ↔ a.flags.valid = true ∧ a.type = type ∧ a.name = name := by
  unfold isNamed
  simp [and_assoc]

theorem findNode_cases (hinv : Inv s) (hnode : type.isNode = true) (name : CString) :
    atomspaceFindNode s type name = handleInvalid ∧
        (∀ j b, s.At j b → b.type = type → b.name ≠ name) ∨
      ∃ j b, s.At j b ∧ b.type = type ∧ b.name = name ∧
        atomspaceFindNode s type name = b.handle := by
  unfold atomspaceFindNode
  split
  next hnone =>
    refine .inl ⟨rfl, ?_⟩
    rintro j b hb rfl rfl
    -- the search goes through one bucket, and that is where the node would be
    have hmem : j ∈ s.hashTable (atomHashName b.name b.type) := by
      rw [hinv.hashTable.mem, key_at _ hb, hinv.hashed j b hb hnode]
    exact find?_eq_none.mp hnone j hmem (holds_iff.mpr ⟨b, hb.1, isNamed_iff.mpr ⟨hb.2, rfl, rfl⟩⟩)
  next k hk =>
    obtain ⟨b, hb, hnamed⟩ := holds_iff.mp (find?_some hk)
    obtain ⟨hv, ht, hn⟩ := isNamed_iff.mp hnamed
    refine .inr ⟨k, b, ⟨hb, hv⟩, ht, hn, ?_⟩
    rw [hb]
    rfl

theorem findNode_at (hinv : Inv s) (hb : s.At j b) (hnode : b.type.isNode = true) :
    atomspaceFindNode s b.type b.name = b.handle := by
  rcases findNode_cases hinv hnode b.name with ⟨-, hno⟩ | ⟨k, c, hc, ht, hn, hfind⟩
  · exact absurd rfl (hno j b hb rfl)
  · have hkj : k = j := hinv.names k j c b hc hb (ht ▸ hnode) ht hn
    subst hkj
    have hcb : c = b := some_inj.mp (hc.1.symm.trans hb.1)
    rw [hfind, hcb]

/-! ## The calls -/

theorem CString.strncpy_eq {n : Nat} (h : name.length ≤ n) : name.strncpy n = name := by
  cases name with
  | mk chars nonzero =>
    unfold strncpy
    congr 1
    exact take_of_length_le h

theorem fresh_newNode (hinv : Inv s) (hmakes : MakesNode s type name)
    (hlen : name.length < maxNameLen) (hnext : s.nextHandle ≠ handleInvalid) :
    Fresh s (newNode s type name) := by
  have hname : (newNode s type name).name = name := strncpy_eq (le_of_lt_succ hlen)
  refine ⟨rfl, rfl, hnext, ?_, atomHashName_lt name type, ?_⟩
  · intro hnode
    rw [hname]
    refine ⟨rfl, ?_⟩
    rcases findNode_cases hinv hnode name with ⟨-, hno⟩ | ⟨k, c, hc, -, -, hfind⟩
    · exact hno
    · have hpos := (hinv.given k c hc).1
      have hzero : c.handle = 0 := hfind.symm.trans hmakes.2.1
      omega
  · intro h hh
    exact absurd hh not_mem_nil

theorem addNode_cases (type : AtomType) (name : Option CString) :
    (atomspaceAddNode s type name).2 = s ∨
      ∃ n i, name = some n ∧ MakesNode s type n ∧ atomspaceAllocAtom s = some i ∧
        atomspaceAddNode s type name = (s.nextHandle,
          { s.file i (newNode s type n) with nodeCount := s.nodeCount + 1 }) := by
  cases name with
  | none => exact .inl rfl
  | some n =>
    unfold atomspaceAddNode
    dsimp only
    split
    · exact .inl rfl
    next hnode =>
      split
      · exact .inl rfl
      next hfind =>
        cases halloc : atomspaceAllocAtom s with
        | none => exact .inl rfl
        | some i =>
          refine .inr ⟨n, i, rfl, ⟨?_, ?_, ?_⟩, rfl, rfl⟩
          · simpa using hnode
          · simpa using hfind
          · rw [halloc]
            rfl

theorem inv_addNode (hinv : Inv s) {name : Option CString} (hsound : Sound s (.addNode type name)) :
    Inv (atomspaceAddNode s type name).2 := by
  rcases addNode_cases type name with hsame | ⟨n, i, rfl, hmakes, halloc, heq⟩
  · rw [hsame]
    exact hinv
  · obtain ⟨hlen, hnext⟩ := hsound n rfl hmakes
    rw [heq]
    have hnode : (newNode s type n).type.isNode = true := hmakes.1
    refine inv_file hinv halloc (fresh_newNode hinv hmakes hlen hnext) ?_ ?_
    · rw [hnode]
      rfl
    · rw [isLink_eq, hnode]
      rfl

theorem inv_addLink (hinv : Inv s) {outgoing : Option (Nat → Nat)} {arity : Nat}
    (hsound : Sound s (.addLink type outgoing arity)) :
    Inv (atomspaceAddLink s type outgoing arity).2 := by
  unfold atomspaceAddLink
  split
  · exact hinv
  next hargs =>
    split
    · exact hinv
    next hnull =>
      dsimp only
      split
      · exact hinv
      next hall =>
        split
        · exact hinv
        next i halloc =>
          simp only [Bool.or_eq_true, Bool.not_eq_true', decide_eq_true_eq, not_or,
            Bool.not_eq_false, Nat.not_lt] at hargs
          simp only [Bool.not_eq_true', Bool.not_eq_false, List.all_eq_true] at hall
          have hout : ∀ k < arity, (atomspaceGetAtom s (outgoing.getD (fun _ => 0) k)).isSome :=
            fun k hk => hall _ (List.mem_map.mpr ⟨k, mem_range.mpr hk, rfl⟩)
          have hnext : s.nextHandle ≠ handleInvalid := by
            refine hsound ⟨hargs.1, hargs.2, ?_, hout, by rw [halloc]; rfl⟩
            intro hpos
            cases outgoing with
            | none => simp [hpos] at hnull
            | some f => rfl
          have hnode : type.isNode = false := by
            have := isLink_eq type
            rw [hargs.1] at this
            simpa using this.symm
          refine inv_file hinv halloc ⟨rfl, rfl, hnext, ?_, atomHashLink_lt _ _, ?_⟩ ?_ ?_
          · intro h
            rw [show (newLink s type _).type = type from rfl, hnode] at h
            cases h
          · intro h hh
            exact (getAtom_isSome fun i a ha => (hinv.given i a ha).1).mp (hall h hh)
          · rw [show (newLink s type _).type = type from rfl, hnode]
            rfl
          · rw [show (newLink s type _).type = type from rfl, hargs.1]
            rfl

/-! ## Removing an atom -/

section

variable (hs : s'.atoms = s.atoms.set i a.remove)

include hs

theorem at_removed : s'.At j b ↔ j ≠ i ∧ s.At j b := by
  unfold Space.At
  rw [hs, getElem?_set]
  by_cases hj : i = j
  · subst hj
    rw [if_pos rfl]
    constructor
    · rintro ⟨hb, hv⟩
      split at hb
      · cases hb
        cases hv
      · cases hb
    · rintro ⟨hne, -⟩
      exact absurd rfl hne
  · rw [if_neg hj]
    exact ⟨fun h => ⟨Ne.symm hj, h⟩, fun h => h.2⟩

theorem key_removed (f : Atom → Nat) : s'.key f i = none ∧ ∀ j, j ≠ i → s'.key f j = s.key f j := by
  constructor
  · cases hk : s'.key f i with
    | none => rfl
    | some k =>
      obtain ⟨b, hb, -⟩ := key_eq_some hk
      exact absurd rfl ((at_removed hs).mp hb).1
  · intro j hj
    unfold key
    rw [hs, getElem?_set, if_neg (Ne.symm hj)]

theorem countP_removed (ha : s.At i a) (q : AtomType → Bool) :
    s'.atoms.countP (fun a => a.flags.valid && q a.type) + (q a.type).toNat =
      s.atoms.countP fun a => a.flags.valid && q a.type := by
  have hset := Pool.countP_set ha.1 (fun a => a.flags.valid && q a.type) a.remove
  rw [hs]
  simpa [ha.2, remove] using hset

end

theorem inv_removeAtom (hinv : Inv s) (hsound : Sound s (.removeAtom handle)) :
    Inv (atomspaceRemoveAtom s handle).2 := by
  unfold atomspaceRemoveAtom
  split
  · exact hinv
  next i hget =>
    obtain ⟨a, ha, rfl⟩ := getAtom_at hget
    rw [ha.1]
    dsimp only
    rw [if_pos a.type.value_lt]
    generalize hs' : Space.mk _ _ _ _ _ _ = s'
    have hatoms : s'.atoms = s.atoms.set i a.remove := by rw [← hs']
    have hnextEq : s'.nextHandle = s.nextHandle := by rw [← hs']
    have hold : ∀ {j b}, s'.At j b → s.At j b := fun h => ((at_removed hatoms).mp h).2
    constructor
    · intro j k b c hb hc
      exact hinv.handles j k b c (hold hb) (hold hc)
    · intro j k b c hb hc
      exact hinv.names j k b c (hold hb) (hold hc)
    · obtain ⟨hnone, hother⟩ := key_removed hatoms Atom.hash
      rw [← hs'] at hnone hother ⊢
      exact hinv.hashTable.remove (key_at Atom.hash ha) hnone hother
    · obtain ⟨hnone, hother⟩ := key_removed hatoms (·.type.value)
      rw [← hs'] at hnone hother ⊢
      exact hinv.typeIndex.remove (key_at (·.type.value) ha) hnone hother
    · have hcount := countP_removed hatoms ha isNode
      rw [← hinv.nodeCount] at hcount
      rw [← hs'] at hcount ⊢
      dsimp only at hcount ⊢
      split
      next hn =>
        rw [hn, Bool.toNat_true] at hcount
        omega
      next hn =>
        rw [Bool.eq_false_iff.mpr hn, Bool.toNat_false] at hcount
        omega
    · have hcount := countP_removed hatoms ha isLink
      rw [← hinv.linkCount, isLink_eq] at hcount
      rw [← hs'] at hcount ⊢
      dsimp only at hcount ⊢
      split
      next hn =>
        rw [hn, Bool.not_true, Bool.toNat_false] at hcount
        omega
      next hn =>
        rw [Bool.eq_false_iff.mpr hn, Bool.not_false, Bool.toNat_true] at hcount
        omega
    · intro j b hb h hh
      obtain ⟨k, c, hc, rfl⟩ := hinv.outgoing j b (hold hb) h hh
      have hk : k ≠ i := by
        rintro rfl
        have hca : c = a := some_inj.mp (hc.1.symm.trans ha.1)
        exact hsound j b (hold hb) (hca ▸ hh)
      exact ⟨k, c, (at_removed hatoms).mpr ⟨hk, hc⟩, rfl⟩
    · intro b hb
      rw [hatoms] at hb
      rcases mem_or_eq_of_mem_set hb with hb | rfl
      · exact hinv.flags b hb
      · rfl
    · intro j b hb
      rw [hnextEq]
      exact hinv.given j b (hold hb)
    · rw [hnextEq]
      exact hinv.next
    · intro j b hb
      exact hinv.hashed j b (hold hb)
    · intro j b hb
      exact hinv.hash j b (hold hb)

/-! ## Every run -/

theorem inv_reach (h : system.Reach Sound s) : Inv s := by
  refine Lts.Reach.inv ?_ ?_ h
  · rintro s rfl
    exact inv_create
  intro s c s' hinv hsound hstep
  cases c with
  | addNode type name =>
    cases hstep
    exact inv_addNode hinv hsound
  | addLink type outgoing arity =>
    cases hstep
    exact inv_addLink hinv hsound
  | removeAtom handle =>
    cases hstep
    exact inv_removeAtom hinv hsound

theorem addNode_again (hinv : Inv s) {name : Option CString} (hsound : Sound s (.addNode type name)) :
    atomspaceAddNode (atomspaceAddNode s type name).2 type name = atomspaceAddNode s type name := by
  rcases addNode_cases type name with hsame | ⟨n, i, rfl, hmakes, halloc, heq⟩
  · rw [hsame]
  · obtain ⟨hlen, hnext⟩ := hsound n rfl hmakes
    have hinv' := inv_addNode hinv hsound
    rw [heq] at hinv' ⊢
    generalize hs' : Prod.snd _ = s'
    rw [hs'] at hinv'
    have hat : s'.At i (newNode s type n) := by
      rw [← hs']
      exact (at_file (alloc_free hinv.flags halloc).1 rfl).mpr (.inl ⟨rfl, rfl⟩)
    have hname : (newNode s type n).name = n := strncpy_eq (le_of_lt_succ hlen)
    have hfind := findNode_at hinv' hat hmakes.1
    rw [hname] at hfind
    have hfind' : atomspaceFindNode s' type n = s.nextHandle := hfind
    unfold atomspaceAddNode
    dsimp only
    rw [if_neg (by simp [hmakes.1]), hfind', if_pos hnext]
    rw [← hs']

/-- **The integrity of an atom space**, in every run of calls that it is up to. -/
theorem atomspace_integrity (h : system.Reach Sound s) : Integrity s := by
  have hinv := inv_reach h
  refine ⟨hinv.handles, hinv.names, ?_, hinv.hashTable, hinv.typeIndex, ?_, hinv.nodeCount,
    hinv.linkCount, ?_⟩
  · intro type name hsound
    exact addNode_again hinv hsound
  · intro i a ha
    exact ⟨hinv.hash i a ha, a.type.value_lt⟩
  · intro i a ha _ h hh
    exact (getAtom_isSome fun i a ha => (hinv.given i a ha).1).mpr (hinv.outgoing i a ha h hh)

theorem replicate_nonzero (n : Nat) : ∀ c ∈ replicate n (97 : Int8), c ≠ 0 := by
  intro c hc
  rw [eq_of_mem_replicate hc]
  decide

def shortName : CString := ⟨List.replicate 1 97, replicate_nonzero 1⟩

def longName : CString := ⟨List.replicate 32 97, replicate_nonzero 32⟩

def linkCalls : List Call :=
  [.addNode .taskNode (some shortName), .addNode .threadNode (some shortName),
    .addLink .memberLink (some fun i => i + 1) 2, .removeAtom 3]

theorem linkCalls_sound : system.okRun Sound atomspaceCreate linkCalls := by
  refine ⟨?_, ?_, ?_, ?_, trivial⟩
  · rintro n hn -
    cases hn
    decide
  · rintro n hn -
    cases hn
    decide
  · intro _
    decide
  · intro i a ha
    have hout : ∀ b ∈ (atomspaceAddLink (atomspaceAddNode (atomspaceAddNode atomspaceCreate
        .taskNode (some shortName)).2 .threadNode (some shortName)).2 .memberLink
        (some fun i => i + 1) 2).2.atoms, 3 ∉ b.outgoing := by decide
    exact hout a (mem_of_getElem? ha.1)

theorem linkCalls_integrity : ∃ s, system.run atomspaceCreate linkCalls = some s ∧
    s.nodeCount = 2 ∧ s.linkCount = 0 ∧ Integrity s :=
  ⟨_, rfl, by decide, by decide,
    atomspace_integrity (.run linkCalls (.start rfl) linkCalls_sound rfl)⟩

/-- A name that does not fit is added a second time under a new handle, as it is compared with
its first 31 characters; and a removed node stays in the outgoing set of a link. -/
theorem integrity_lost : (∃ s, system.run atomspaceCreate [.addNode .node (some longName),
        .addNode .node (some longName)] = some s ∧
      s.atoms.map (fun a => (a.handle, a.name.length)) = [(1, 31), (2, 31)] ∧ ¬ Integrity s) ∧
    ∃ s, system.run atomspaceCreate [.addNode .node (some shortName),
        .addLink .link (some fun _ => 1) 1, .removeAtom 1] = some s ∧
      s.linkCount = 1 ∧ atomspaceGetAtom s 1 = none ∧ ¬ Integrity s := by
  refine ⟨⟨_, rfl, by decide +kernel, ?_⟩, ⟨_, rfl, by decide, by decide, ?_⟩⟩
  · intro h
    have hfalse : (0 : Nat) = 1 := h.names 0 1 (newNode atomspaceCreate .node longName)
      { newNode atomspaceCreate .node longName with handle := 2 }
      ⟨by decide +kernel, rfl⟩ ⟨by decide +kernel, rfl⟩ rfl rfl rfl
    cases hfalse
  · intro h
    have hsome := h.outgoing 1 { newLink atomspaceCreate .link [1] with handle := 2 }
      ⟨by decide, rfl⟩ rfl 1 mem_cons_self
    revert hsome
    decide

end Mach.Kern.Atomspace
