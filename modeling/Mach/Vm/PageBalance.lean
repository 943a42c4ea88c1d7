import Mathlib.Algebra.Order.BigOperators.Group.Finset
import Mathlib.Algebra.BigOperators.Ring.Finset
import Mathlib.Data.Fintype.BigOperators
import Mathlib.Data.List.Basic

/-!
# Balancing the segments

`vm_page_balance` of `vm/vm_page.c`: as long as a segment has pages to spare, a page is moved
to it from a segment that is short of free pages. The free lists of all segments are one list
here, and so are their queues: a list of the kernel is what this list has of its pages, in the
same order. The buddy allocator gives the first free page of a segment. Whether
`vm_object_lock_try` gets a lock is open at each call, and what the locks are for is left out.

A move ends in `vm_page_insert`, which deactivates the page that came into the object last if
it is the one before. That may be a page of a third segment which is on no queue: the segment,
which was usable because it had nothing to page out, is then short of free pages.
-/

namespace Mach.Vm.PageBalance

open Function Finset

inductive Queue
  | active | inactive
deriving DecidableEq

/-- `struct vm_page`. -/
structure Page where
  object : Nat
  offset : BitVec 64
  busy : Bool
  wanted : Bool
  absent : Bool
  fictitious : Bool
  isPrivate : Bool
  wireCount : Nat
  /-- `active` and `inactive` -/
  queue : Option Queue
  reference : Bool
  accessFrequency : Nat
  agingTime : Nat

structure Kernel (n : Nat) where
  highFreePages : Fin n → Nat
  segIndex : Nat → Fin n
  /-- `object->internal` -/
  internal : Nat → Bool
  /-- `object->alive` -/
  alive : Nat → Bool
  /-- `vm_page_deactivate_behind` -/
  deactivateBehind : Bool
  /-- what `vm_object_lock_try` returns, call by call -/
  lockTry : Nat → Bool
  /-- what `pmap_is_referenced` returns, call by call -/
  isReferenced : Nat → Bool

structure State where
  page : Nat → Page
  free : List Nat
  queued : List Nat
  /-- `vm_page_lookup` -/
  lookup : Nat → BitVec 64 → Option Nat
  /-- `object->last_alloc` -/
  lastAlloc : Nat → BitVec 64
  /-- The calls of `vm_object_lock_try` and `pmap_is_referenced` so far. -/
  tries : Nat

variable {n : Nat} (K : Kernel n)

/-! ## Pages -/

namespace Page

def init : Page := ⟨0, 0, true, false, false, false, false, 0, none, false, 0, 0⟩

/-- `vm_page_can_move`. -/
def canMove (pg : Page) : Bool := !pg.busy && !pg.wanted && !pg.absent && K.alive pg.object

def pageable (pg : Page) : Bool := pg.wireCount = 0 && !pg.fictitious && !pg.isPrivate

def score (pg : Page) : Nat := pg.accessFrequency * 4 + pg.agingTime

/-- `vm_page_update_replacement_data`. -/
def updateReplacementData (pg : Page) (accessed : Bool) : Page :=
  if accessed then
    { pg with
      accessFrequency := if pg.accessFrequency < 15 then pg.accessFrequency + 1 else pg.accessFrequency
      agingTime := 0 }
  else
    let aging := if pg.agingTime < 15 then pg.agingTime + 1 else pg.agingTime
    { pg with
      agingTime := aging
      accessFrequency :=
        if pg.accessFrequency > 0 ∧ aging > 8 then pg.accessFrequency - 1 else pg.accessFrequency }

end Page

/-! ## Queues -/

namespace State

variable (s : State)

def setPage (p : Nat) (pg : Page) : State := { s with page := update s.page p pg }

def nrFreePages (i : Fin n) : Nat := s.free.countP (K.segIndex · = i)

/-- `nr_active_pages + nr_inactive_pages`. -/
def nrQueuedPages (i : Fin n) : Nat := s.queued.countP (K.segIndex · = i)

def pageAvailable (i : Fin n) : Bool := s.nrFreePages K i > K.highFreePages i

def usable (i : Fin n) : Bool :=
  if s.nrQueuedPages K i = 0 then true else s.nrFreePages K i ≥ K.highFreePages i

def listed (seg : Fin n) (q : Queue) (external : Bool) (p : Nat) : Bool :=
  K.segIndex p = seg ∧ (s.page p).queue = some q ∧ K.internal (s.page p).object = !external

/-- `external_pages` or `internal_pages` of a queue. -/
def pages (seg : Fin n) (q : Queue) (external : Bool) : List Nat :=
  s.queued.filter (s.listed K seg q external)

/-- `vm_page_seg_add_active_page` and `vm_page_seg_add_inactive_page`. -/
def add (q : Queue) (p : Nat) : State :=
  { s.setPage p { s.page p with queue := some q, reference := (s.page p).reference || q = .active } with
    queued := s.queued ++ [p] }

/-- `vm_page_seg_remove_active_page` and `vm_page_seg_remove_inactive_page`. -/
def remove (p : Nat) : State :=
  { s.setPage p { s.page p with queue := none } with queued := s.queued.erase p }

def pull (p : Nat) : State := { s.remove p with tries := s.tries + 1 }

def queuesRemove (p : Nat) : State := if (s.page p).queue = none then s else s.remove p

/-- `vm_page_deactivate`. -/
def deactivate (p : Nat) : State :=
  let pg := s.page p
  let s :=
    if pg.queue = some .active ∨ (pg.queue = some .inactive ∧ pg.reference) then
      (s.setPage p { pg with reference := false }).queuesRemove p
    else s
  if pg.pageable ∧ (s.page p).queue ≠ some .inactive then s.add .inactive p else s

/-- `vm_page_activate`. -/
def activate (p : Nat) : State :=
  let s := s.queuesRemove p
  let pg := s.page p
  if pg.pageable then (s.setPage p (pg.updateReplacementData true)).add .active p else s

/-- The page that came into an object last is deactivated, if it is the one before. -/
def deactivateLast (object : Nat) (offset : BitVec 64) : State :=
  match s.lookup object (s.lastAlloc object) with
  | none => s
  | some p =>
    if K.deactivateBehind ∧ offset = s.lastAlloc object + 4096 ∧ ¬ (s.page p).busy then s.deactivate p
    else s

/-- `vm_page_insert`, without what it notes for a read-ahead. -/
def insert (p object : Nat) (offset : BitVec 64) : State :=
  let s := { s.setPage p { s.page p with object := object, offset := offset } with
    lookup := update s.lookup object (update (s.lookup object) offset (some p)) }
  { s.deactivateLast K object offset with lastAlloc := update s.lastAlloc object offset }

/-- The page `dest` becomes what `src` was, and `src` is freed. -/
def replace (src dest : Nat) (referenced : Bool) : State :=
  { s with
    page := update (update s.page dest
      { s.page src with reference := (s.page src).reference || referenced, busy := false }) src .init
    free := src :: s.free.erase dest
    tries := s.tries + 1 }

end State

/-! ## Pulling a page -/

variable (seg : Fin n)

/-- `vm_page_seg_pull_active_page` and `vm_page_seg_pull_inactive_page`, for `fuel` turns of
their loops. -/
def pullPage (q : Queue) : Nat → Bool → Option Nat → State → Option (Option Nat × State)
  | 0, _, _, _ => none
  | fuel + 1, external, first, s =>
    -- the next list, if this is not the last one
    let next := if external then pullPage q fuel false none s else some (none, s)
    match (s.pages K seg q external).head? with
    | none => next
    | some p =>
      if first = some p then next
      else
        if K.lockTry s.tries && (s.page p).canMove K then some (some p, s.pull p)
        else pullPage q fuel external (some (first.getD p)) ((s.pull p).add q p)

/-- A turn of the loop of `vm_page_seg_select_best_inactive_page`. -/
def better (s : State) (best : Option Nat) (p : Nat) : Option Nat :=
  if (s.page p).busy ∨ (s.page p).absent then best
  else
    match best with
    | none => some p
    | some b => if (s.page p).score < (s.page b).score then some p else some b

def selectBestInactivePage (s : State) : Option Nat :=
  ((s.pages K seg .inactive false).take 16).foldl (better s) none

/-- `vm_page_seg_pull_cache_page` of all pages, and `was_active`. -/
def pullCachePage (s : State) : Option (Option (Nat × Bool) × State) :=
  match selectBestInactivePage K seg s with
  -- the object of this page is not locked
  | some p => some (some (p, false), (s.remove p).setPage p (((s.remove p).page p).updateReplacementData false))
  | none =>
    (pullPage K seg .inactive (2 * s.queued.length + 4) true none s).bind fun
      | (some p, s) => some (some (p, false), s)
      | (none, s) => (pullPage K seg .active (2 * s.queued.length + 4) true none s).map fun r =>
          (r.1.map (·, true), r.2)

/-! ## Balancing -/

/-- `vm_page_seg_balance_page`, unless a loop does not end or there is no free page. -/
def vmPageSegBalancePage (s : State) (seg remote : Fin n) : Option (Bool × State) :=
  if s.usable K seg || !s.pageAvailable K remote then some (false, s)
  else (pullCachePage K seg s).bind fun
    | (none, s) => some (false, s)
    | (some (src, wasActive), s) =>
      (s.free.find? (K.segIndex · = remote)).map fun dest =>
        -- the entry of `src` in the table is overwritten by that of `dest`
        let moved := (s.replace src dest (!wasActive && K.isReferenced s.tries)).insert K dest
          (s.page src).object (s.page src).offset
        (true, if wasActive then moved.activate dest else moved.deactivate dest)

def tryEach (f : State → Fin n → Option (Bool × State)) : List (Fin n) → State → Option (Bool × State)
  | [], s => some (false, s)
  | i :: is, s => (f s i).bind fun r => if r.1 then some r else tryEach f is r.2

/-- `vm_page_seg_balance`. -/
def vmPageSegBalance (s : State) (seg : Fin n) : Option (Bool × State) :=
  tryEach (fun s remote => if remote = seg then some (false, s) else vmPageSegBalancePage K s seg remote)
    (List.finRange n).reverse s

def vmPageBalanceOnce (s : State) : Option (Bool × State) :=
  tryEach (vmPageSegBalance K) (List.finRange n) s

def vmPageMayBalance (s : State) : Bool := (List.finRange n).any (s.pageAvailable K)

/-- The loop of `vm_page_balance`, for less than `fuel` moves. -/
def vmPageBalance : Nat → State → Option State
  | 0, _ => none
  | fuel + 1, s =>
    if vmPageMayBalance K s then
      (vmPageBalanceOnce K s).bind fun r => if r.1 then vmPageBalance fuel r.2 else some r.2
    else some s

/-- One page was moved, from a segment that was not usable to one with pages to spare. -/
structure Moved (s s' : State) (seg remote : Fin n) : Prop where
  source : s.usable K seg = false
  dest : K.highFreePages remote < s.nrFreePages K remote
  page : ∃ src ∈ s.queued, ∃ dest ∈ s.free, K.segIndex src = seg ∧ K.segIndex dest = remote ∧
    s'.free = src :: s.free.erase dest ∧
    s'.lookup (s.page src).object (s.page src).offset = some dest

/-- No object got its last page in a segment that is short of free pages and has none on its
queues, unless it is a page that is not to be paged out. -/
def Quiet (s : State) : Prop :=
  ∀ object p, s.lookup object (s.lastAlloc object) = some p → (s.page p).busy = false →
    (s.page p).pageable = true → s.nrQueuedPages K (K.segIndex p) ≠ 0 ∨
      K.highFreePages (K.segIndex p) ≤ s.nrFreePages K (K.segIndex p)

def deficit (s : State) : Nat := ∑ i, (K.highFreePages i - s.nrFreePages K i)

section

variable {K seg} {s s' : State} {remote : Fin n} {p : Nat} {q : Queue} {external : Bool}

/-! ## The loops end -/

theorem mem_pages (h : p ∈ s.pages K seg q external) : p ∈ s.queued ∧ K.segIndex p = seg := by
  have hp := List.mem_filter.mp h
  exact ⟨hp.1, (of_decide_eq_true hp.2).1⟩

theorem pages_again {ps : List Nat} (h : s.pages K seg q external = p :: ps) :
    ((s.pull p).add q p).pages K seg q external = ps ++ [p] := by
  have hp := (List.mem_filter.mp (h ▸ List.mem_cons_self : p ∈ s.pages K seg q external)).2
  have hsame : ((s.pull p).add q p).listed K seg q external = s.listed K seg q external := by
    funext x
    by_cases hx : x = p
    · subst hx
      rw [hp]
      have hcond := of_decide_eq_true hp
      simp [State.listed, State.add, State.pull, State.remove, State.setPage, hcond.1, hcond.2.2]
    · simp [State.listed, State.add, State.pull, State.remove, State.setPage, update_of_ne hx]
  have hone : [p].filter (s.listed K seg q external) = [p] := by simp [hp]
  unfold State.pages at h ⊢
  rw [hsame]
  show (s.queued.erase p ++ [p]).filter _ = _
  rw [List.filter_append, ← List.erase_filter, h, List.erase_cons_head, hone]

theorem queued_again (h : p ∈ s.queued) : ((s.pull p).add q p).queued.length = s.queued.length := by
  show (s.queued.erase p ++ [p]).length = _
  rw [List.length_append, List.length_erase_of_mem h]
  have := List.length_pos_of_mem h
  simp only [List.length_singleton]
  omega

/-- The turns that are left for a list: up to the page that the loop began with. -/
def turns (first : Option Nat) (ps : List Nat) : Nat := first.elim (ps.length + 1) ps.idxOf

theorem turns_again {ps : List Nat} {first : Option Nat} (hfirst : ∀ f ∈ first, f ∈ p :: ps)
    (hne : first ≠ some p) : first.getD p ∈ ps ++ [p] ∧
      turns (some (first.getD p)) (ps ++ [p]) < turns first (p :: ps) := by
  cases first with
  | none =>
    have hmem : p ∈ ps ++ [p] := List.mem_append_right _ (List.mem_singleton_self p)
    have hidx := List.idxOf_lt_length_iff.mpr hmem
    exact ⟨hmem, hidx.trans_le (by simp [turns])⟩
  | some f =>
    have hf : p ≠ f := fun heq => hne (congrArg some heq.symm)
    have hrest : f ∈ ps := (List.mem_cons.mp (hfirst f rfl)).resolve_left hf.symm
    refine ⟨List.mem_append_left _ hrest, ?_⟩
    show (ps ++ [p]).idxOf f < (p :: ps).idxOf f
    rw [List.idxOf_append_of_mem hrest, List.idxOf_cons_ne ps hf]
    exact Nat.lt_succ_self _

theorem pullPage_ends {fuel : Nat} : ∀ {external : Bool} {first : Option Nat} {s : State},
    (∀ f ∈ first, f ∈ s.pages K seg q external) →
    turns first (s.pages K seg q external) + (if external then s.queued.length + 2 else 0) < fuel →
    (pullPage K seg q fuel external first s).isSome := by
  induction fuel with
  | zero => exact fun _ h => absurd h (Nat.not_lt_zero _)
  | succ fuel ih =>
    intro external first s hfirst hfuel
    have hnext : (if external then pullPage K seg q fuel false none s else some (none, s)).isSome := by
      split at hfuel
      · have hlen := List.length_filter_le (s.listed K seg q false) s.queued
        rw [if_pos ‹_›]
        refine ih (fun _ hf => nomatch hf) ?_
        show (s.queued.filter _).length + 1 + 0 < fuel
        omega
      · rw [if_neg ‹_›]
        rfl
    rw [pullPage]
    cases hps : s.pages K seg q external with
    | nil => exact hnext
    | cons p ps =>
      rw [hps] at hfirst hfuel
      simp only [List.head?_cons]
      split
      · exact hnext
      next hne =>
        split
        · rfl
        · obtain ⟨hmem, hless⟩ := turns_again hfirst hne
          have hagain := pages_again hps
          refine ih ?_ ?_
          · rintro f ⟨⟩
            rw [hagain]
            exact hmem
          · rw [hagain, queued_again (mem_pages (hps ▸ List.mem_cons_self)).1]
            omega

theorem pullPage_isSome (K : Kernel n) (seg : Fin n) (q : Queue) (s : State) :
    (pullPage K seg q (2 * s.queued.length + 4) true none s).isSome := by
  have hlen := List.length_filter_le (s.listed K seg q true) s.queued
  refine pullPage_ends (fun _ hf => nomatch hf) ?_
  show (s.queued.filter _).length + 1 + (s.queued.length + 2) < _
  omega

/-! ## What pulling changes -/

/-- Pages of the segment have been turned round or pulled. -/
structure Turned (K : Kernel n) (seg : Fin n) (s s' : State) : Prop where
  free : s'.free = s.free
  lookup : s'.lookup = s.lookup
  lastAlloc : s'.lastAlloc = s.lastAlloc
  page : ∀ p, K.segIndex p ≠ seg → s'.page p = s.page p
  place : ∀ p, (s'.page p).object = (s.page p).object ∧ (s'.page p).offset = (s.page p).offset
  queued : s'.queued ⊆ s.queued

theorem Turned.refl (s : State) : Turned K seg s s :=
  ⟨rfl, rfl, rfl, fun _ _ => rfl, fun _ => ⟨rfl, rfl⟩, fun _ => id⟩

theorem Turned.trans {s₁ s₂ : State} (h : Turned K seg s s₁) (h' : Turned K seg s₁ s₂) :
    Turned K seg s s₂ where
  free := h'.free.trans h.free
  lookup := h'.lookup.trans h.lookup
  lastAlloc := h'.lastAlloc.trans h.lastAlloc
  page p hp := (h'.page p hp).trans (h.page p hp)
  place p := ⟨(h'.place p).1.trans (h.place p).1, (h'.place p).2.trans (h.place p).2⟩
  queued _ hp := h.queued (h'.queued hp)

theorem turned_setPage (hp : p ∈ s.pages K seg q external) (pg : Page) (tries : Nat) {ps : List Nat}
    (hobject : pg.object = (s.page p).object) (hoffset : pg.offset = (s.page p).offset)
    (hps : ps ⊆ s.queued) :
    Turned K seg s { s.setPage p pg with queued := ps, tries := tries } where
  free := rfl
  lookup := rfl
  lastAlloc := rfl
  page x hx := update_of_ne (fun heq => hx (by rw [heq, (mem_pages hp).2])) _ _
  place x := by
    by_cases hx : x = p
    · subst hx
      simp only [State.setPage, update_self]
      exact ⟨hobject, hoffset⟩
    · simp only [State.setPage, update_of_ne hx]
      exact ⟨trivial, trivial⟩
  queued := hps

theorem pullPage_turned {fuel : Nat} : ∀ {external : Bool} {first r : Option Nat} {s : State},
    pullPage K seg q fuel external first s = some (r, s') →
    Turned K seg s s' ∧ ∀ p ∈ r, p ∈ s.queued ∧ K.segIndex p = seg := by
  induction fuel with
  | zero =>
    intro external first r s h
    cases h
  | succ fuel ih =>
    intro external first r s h
    have hlast : ∀ {r}, (if external then pullPage K seg q fuel false none s else some (none, s)) = some (r, s') →
        Turned K seg s s' ∧ ∀ p ∈ r, p ∈ s.queued ∧ K.segIndex p = seg := by
      intro r h
      split at h
      · exact ih h
      · cases h
        exact ⟨.refl _, fun _ hp => nomatch hp⟩
    rw [pullPage] at h
    split at h
    · exact hlast h
    next p hhead =>
      have hp := List.mem_of_mem_head? hhead
      have hsub : s.queued.erase p ⊆ s.queued := List.erase_subset
      split at h
      · exact hlast h
      · split at h
        · cases h
          refine ⟨turned_setPage hp _ _ rfl rfl hsub, fun p' hp' => ?_⟩
          cases hp'
          exact mem_pages hp
        · obtain ⟨hturned, hr⟩ := ih h
          have hagain : Turned K seg s ((s.pull p).add q p) := by
            have hround : s.queued.erase p ++ [p] ⊆ s.queued :=
              List.append_subset.mpr ⟨hsub, List.cons_subset.mpr ⟨(mem_pages hp).1, List.nil_subset _⟩⟩
            have hset := turned_setPage hp
              { s.page p with queue := some q, reference := (s.page p).reference || q = .active }
              (s.tries + 1) rfl rfl hround
            simpa [State.add, State.pull, State.remove, State.setPage] using hset
          exact ⟨hagain.trans hturned, fun p' hp' => ⟨hagain.queued (hr p' hp').1, (hr p' hp').2⟩⟩

theorem mem_of_selectBest (h : selectBestInactivePage K seg s = some p) :
    p ∈ s.pages K seg .inactive false := by
  have hbetter : ∀ best x, better s best x = some p → best = some p ∨ x = p := by
    intro best x h
    unfold better at h
    cases best <;> grind
  have hfold : ∀ (l : List Nat) (best : Option Nat), l.foldl (better s) best = some p →
      best = some p ∨ p ∈ l := by
    intro l
    induction l with
    | nil => exact fun best h => .inl h
    | cons x l ih =>
      intro best h
      rcases ih _ h with hbest | hl
      · rcases hbetter best x hbest with hbest | rfl
        · exact .inl hbest
        · exact .inr List.mem_cons_self
      · exact .inr (List.mem_cons_of_mem x hl)
  exact List.mem_of_mem_take ((hfold _ none h).resolve_left nofun)

theorem pullCachePage_spec (K : Kernel n) (seg : Fin n) (s : State) :
    ∃ r s', pullCachePage K seg s = some (r, s') ∧ Turned K seg s s' ∧
      ∀ x ∈ r, x.1 ∈ s.queued ∧ K.segIndex x.1 = seg := by
  unfold pullCachePage
  split
  next p hbest =>
    have hp := mem_of_selectBest hbest
    refine ⟨_, _, rfl, ?_, fun x hx => ?_⟩
    · have hset := turned_setPage hp ({ s.page p with queue := none }.updateReplacementData false)
        s.tries rfl rfl (List.erase_subset (a := p) (l := s.queued))
      simpa [State.remove, State.setPage] using hset
    · cases hx
      exact mem_pages hp
  next =>
    obtain ⟨⟨r, s1⟩, h1⟩ := Option.isSome_iff_exists.mp (pullPage_isSome K seg .inactive s)
    obtain ⟨hturned, hr⟩ := pullPage_turned h1
    rw [h1]
    cases r with
    | some p =>
      refine ⟨_, _, rfl, hturned, fun x hx => ?_⟩
      cases hx
      exact hr p rfl
    | none =>
      obtain ⟨⟨r, s2⟩, h2⟩ := Option.isSome_iff_exists.mp (pullPage_isSome K seg .active s1)
      obtain ⟨hturned', hr'⟩ := pullPage_turned h2
      refine ⟨r.map (·, true), s2, by simp [h2], hturned.trans hturned', fun x hx => ?_⟩
      obtain ⟨p, hp, rfl⟩ := Option.map_eq_some_iff.mp hx
      exact ⟨hturned.queued (hr' p hp).1, (hr' p hp).2⟩

/-! ## One move -/

theorem deactivate_adds (s : State) (p : Nat) :
    (s.deactivate p).free = s.free ∧ (s.deactivate p).lookup = s.lookup ∧
      ∀ x ∈ (s.deactivate p).queued, x ∈ s.queued ∨ x = p ∧ (s.page p).pageable = true := by
  simp only [State.deactivate, State.queuesRemove, State.add, State.remove, State.setPage]
  grind [List.mem_of_mem_erase]

theorem activate_adds (s : State) (p : Nat) :
    (s.activate p).free = s.free ∧ (s.activate p).lookup = s.lookup ∧
      ∀ x ∈ (s.activate p).queued, x ∈ s.queued ∨ x = p := by
  simp only [State.activate, State.queuesRemove, State.add, State.remove, State.setPage]
  grind [List.mem_of_mem_erase]

theorem requeue_adds (s : State) (p : Nat) (wasActive : Bool) :
    ∃ s', (if wasActive then s.activate p else s.deactivate p) = s' ∧ s'.free = s.free ∧
      s'.lookup = s.lookup ∧ ∀ x ∈ s'.queued, x ∈ s.queued ∨ x = p := by
  cases wasActive with
  | true => exact ⟨_, rfl, activate_adds s p⟩
  | false =>
    obtain ⟨hfree, hlookup, hqueued⟩ := deactivate_adds s p
    exact ⟨_, rfl, hfree, hlookup, fun x hx => (hqueued x hx).imp_right And.left⟩

theorem deactivateLast_adds (s : State) (object : Nat) (offset : BitVec 64) :
    (s.deactivateLast K object offset).free = s.free ∧
      (s.deactivateLast K object offset).lookup = s.lookup ∧
      ∀ x ∈ (s.deactivateLast K object offset).queued, x ∈ s.queued ∨
        s.lookup object (s.lastAlloc object) = some x ∧ (s.page x).busy = false ∧
          (s.page x).pageable = true := by
  unfold State.deactivateLast
  split
  · exact ⟨rfl, rfl, fun x hx => .inl hx⟩
  next p hp =>
    split
    next hcond =>
      obtain ⟨hfree, hlookup, hqueued⟩ := deactivate_adds s p
      refine ⟨hfree, hlookup, fun x hx => ?_⟩
      rcases hqueued x hx with hin | ⟨rfl, hpageable⟩
      · exact .inl hin
      · exact .inr ⟨hp, by simpa using hcond.2.2, hpageable⟩
    · exact ⟨rfl, rfl, fun x hx => .inl hx⟩

theorem insert_adds (K : Kernel n) (s : State) (p object : Nat) (offset : BitVec 64) :
    (s.insert K p object offset).free = s.free ∧
      (s.insert K p object offset).lookup object offset = some p ∧
      ∀ x ∈ (s.insert K p object offset).queued, x ∈ s.queued ∨ x = p ∨
        s.lookup object (s.lastAlloc object) = some x ∧ (s.page x).busy = false ∧
          (s.page x).pageable = true := by
  obtain ⟨hfree, hlookup, hqueued⟩ := deactivateLast_adds (K := K)
    { s.setPage p { s.page p with object := object, offset := offset } with
      lookup := update s.lookup object (update (s.lookup object) offset (some p)) } object offset
  refine ⟨hfree, ?_, fun x hx => ?_⟩
  · refine (congrFun (congrFun hlookup object) offset).trans ?_
    simp
  · rcases hqueued x hx with hin | ⟨hlast, hbusy, hpageable⟩
    · exact .inl hin
    · by_cases hxp : x = p
      · exact .inr (.inl hxp)
      · simp only [State.setPage, update_self, update_apply, if_neg hxp] at hlast hbusy hpageable
        split at hlast
        · exact absurd (Option.some.inj hlast).symm hxp
        · exact .inr (.inr ⟨hlast, hbusy, hpageable⟩)

section

variable (h : Moved K s s' seg remote)
include h

theorem Moved.free (i : Fin n) : s'.nrFreePages K i + (if i = remote then 1 else 0) =
    s.nrFreePages K i + (if i = seg then 1 else 0) := by
  obtain ⟨src, -, dest, hdest, hsrc, hremote, hfree, -⟩ := h.page
  unfold State.nrFreePages
  rw [hfree, List.countP_cons, List.countP_erase]
  have hs : decide (K.segIndex src = i) = true ↔ i = seg := by rw [decide_eq_true_eq, hsrc, eq_comm]
  have hd : decide (K.segIndex dest = i) = true ↔ i = remote := by
    rw [decide_eq_true_eq, hremote, eq_comm]
  simp only [hdest, true_and, hs, hd]
  by_cases hi : i = remote
  · have hpos : 0 < s.free.countP (K.segIndex · = i) :=
      List.countP_pos_iff.mpr ⟨dest, hdest, hd.mpr hi⟩
    simp only [if_pos hi]
    omega
  · simp only [if_neg hi]
    omega

theorem Moved.needed : s.nrFreePages K seg < K.highFreePages seg := by
  have hsource := h.source
  simp only [State.usable] at hsource
  grind

theorem Moved.total : ∑ i, s'.nrFreePages K i = ∑ i, s.nrFreePages K i := by
  have hsum := sum_congr rfl fun i (_ : i ∈ univ) => h.free i
  simpa [sum_add_distrib] using hsum

theorem Moved.deficit_lt : deficit K s' < deficit K s := by
  have hneeded := h.needed
  have hdest := h.dest
  have hne : seg ≠ remote := fun heq => by rw [heq] at hneeded; omega
  refine sum_lt_sum (fun i _ => ?_) ⟨seg, mem_univ _, ?_⟩
  · have hfree := h.free i
    by_cases hr : i = remote
    · rw [if_pos hr, if_neg fun heq => hne (heq.symm.trans hr)] at hfree
      subst hr
      omega
    · rw [if_neg hr] at hfree
      split at hfree <;> omega
  · have hfree := h.free seg
    rw [if_neg hne, if_pos rfl] at hfree
    omega

/-- A move harms no segment on whose queues it puts no page. -/
theorem Moved.usable (hqueued : ∀ i, i ≠ seg → i ≠ remote → s.nrQueuedPages K i = 0 →
      s.nrFreePages K i < K.highFreePages i → s'.nrQueuedPages K i = 0) (i : Fin n)
    (hi : s.usable K i = true) : s'.usable K i = true := by
  have hne : i ≠ seg := fun heq => by simp [heq, h.source] at hi
  have hdest := h.dest
  have hfree := h.free i
  have hnone := hqueued i hne
  simp only [State.usable, if_neg hne] at *
  by_cases hr : i = remote
  · subst hr
    grind
  · grind

end

/-- The page that is deactivated is not the first on the queues of a segment short of free pages. -/
theorem Quiet.queued (hquiet : Quiet K s) (hturned : Turned K seg s s') {object x : Nat}
    (hx : K.segIndex x ≠ seg) (hlook : s'.lookup object (s'.lastAlloc object) = some x)
    (hbusy : (s'.page x).busy = false) (hpageable : (s'.page x).pageable = true)
    (hshort : s.nrFreePages K (K.segIndex x) < K.highFreePages (K.segIndex x)) :
    s.nrQueuedPages K (K.segIndex x) ≠ 0 := by
  rw [hturned.lookup, hturned.lastAlloc] at hlook
  rw [hturned.page x hx] at hbusy hpageable
  exact (hquiet object x hlook hbusy hpageable).resolve_right (not_le.mpr hshort)

/-- One call: a page is moved, and segments stay usable if the state is quiet; or no page is
freed. -/
theorem balancePage_spec (K : Kernel n) (s : State) (seg remote : Fin n) :
    ∃ r, vmPageSegBalancePage K s seg remote = some r ∧
      if r.1 then Moved K s r.2 seg remote ∧
        (Quiet K s → ∀ i, s.usable K i = true → r.2.usable K i = true)
      else r.2.free = s.free := by
  unfold vmPageSegBalancePage
  split
  · exact ⟨_, rfl, rfl⟩
  next hguard =>
    simp only [Bool.or_eq_true, Bool.not_eq_true', not_or, Bool.not_eq_true, Bool.not_eq_false,
      State.pageAvailable, decide_eq_true_eq] at hguard
    obtain ⟨hsource, hdest⟩ := hguard
    obtain ⟨r, s1, hpull, hturned, hr⟩ := pullCachePage_spec K seg s
    rw [hpull]
    rcases r with - | ⟨src, wasActive⟩
    · exact ⟨_, rfl, hturned.free⟩
    obtain ⟨hsrc, hseg⟩ := hr _ rfl
    obtain ⟨dest, hfind⟩ : ∃ dest, s1.free.find? (K.segIndex · = remote) = some dest := by
      rw [hturned.free, ← Option.isSome_iff_exists, List.find?_isSome]
      exact List.countP_pos_iff.mp (Nat.zero_lt_of_lt hdest)
    have hremote : K.segIndex dest = remote := by simpa using List.find?_some hfind
    have hmem : dest ∈ s.free := hturned.free ▸ List.mem_of_find?_eq_some hfind
    let s2 := s1.replace src dest (!wasActive && K.isReferenced s1.tries)
    obtain ⟨hfree, hlookup, hadds⟩ := insert_adds K s2 dest (s1.page src).object (s1.page src).offset
    let s3 := s2.insert K dest (s1.page src).object (s1.page src).offset
    obtain ⟨s4, hs4, hfree4, hlookup4, hadds4⟩ := requeue_adds s3 dest wasActive
    have hmoved : Moved K s s4 seg remote := by
      refine ⟨hsource, hdest, src, hsrc, dest, hmem, hseg, hremote, ?_, ?_⟩
      · rw [hfree4, hfree, ← hturned.free]
        rfl
      · rw [hlookup4, ← (hturned.place src).1, ← (hturned.place src).2]
        exact hlookup
    refine ⟨(true, s4), ?_, ?_⟩
    · show Option.map _ (s1.free.find? (K.segIndex · = remote)) = _
      rw [hfind, ← hs4]
      rfl
    simp only [if_true]
    refine ⟨hmoved, fun hquiet => hmoved.usable fun i hseg' hremote' hnone hshort => ?_⟩
    -- a page of a third segment that is queued now is one that `vm_page_insert` deactivated
    rw [State.nrQueuedPages, List.countP_eq_zero]
    intro x hx hxi
    obtain rfl : K.segIndex x = i := of_decide_eq_true hxi
    have hxdest : x ≠ dest := fun heq => hremote' (by rw [heq, hremote])
    have hxsrc : x ≠ src := fun heq => hseg' (by rw [heq, hseg])
    have hpage : s2.page x = s1.page x := (update_of_ne hxsrc _ _).trans (update_of_ne hxdest _ _)
    rcases hadds x ((hadds4 x hx).resolve_right hxdest) with hin | heq | ⟨hlook, hbusy, hpageable⟩
    · exact List.countP_eq_zero.mp hnone x (hturned.queued hin) hxi
    · exact hxdest heq
    · rw [hpage] at hbusy hpageable
      exact hquiet.queued hturned hseg' hlook hbusy hpageable hshort hnone

/-! ## Whole runs -/

def Balanced (K : Kernel n) (s : State) (r : Option (Bool × State)) : Prop :=
  ∃ done s', r = some (done, s') ∧ if done then deficit K s' < deficit K s else s'.free = s.free

theorem balanced_tryEach {f : State → Fin n → Option (Bool × State)} (hf : ∀ s i, Balanced K s (f s i))
    (is : List (Fin n)) (s : State) : Balanced K s (tryEach f is s) := by
  induction is generalizing s with
  | nil => exact ⟨false, s, rfl, rfl⟩
  | cons i is ih =>
    obtain ⟨done, s1, hr, h1⟩ := hf s i
    rw [tryEach, hr]
    cases done with
    | true => exact ⟨true, s1, rfl, h1⟩
    | false =>
      have hsame : s1.free = s.free := h1
      have hdeficit : deficit K s1 = deficit K s := by
        unfold deficit State.nrFreePages
        rw [hsame]
      obtain ⟨done, s2, hr, h2⟩ := ih s1
      rw [hdeficit, hsame] at h2
      exact ⟨done, s2, hr, h2⟩

theorem balanced_once (K : Kernel n) (s : State) : Balanced K s (vmPageBalanceOnce K s) := by
  refine balanced_tryEach (fun s seg => balanced_tryEach (fun s remote => ?_) _ s) _ s
  split
  · exact ⟨false, s, rfl, rfl⟩
  · obtain ⟨⟨done, s'⟩, hr, h⟩ := balancePage_spec K s seg remote
    refine ⟨done, s', hr, ?_⟩
    cases done with
    | true => exact h.1.deficit_lt
    | false => exact h

theorem vmPageBalance_isSome {fuel : Nat} (hfuel : deficit K s < fuel) :
    (vmPageBalance K fuel s).isSome := by
  induction fuel generalizing s with
  | zero => cases hfuel
  | succ fuel ih =>
    rw [vmPageBalance]
    split
    · obtain ⟨done, s', hr, h⟩ := balanced_once K s
      rw [hr]
      cases done with
      | true =>
        have hless : deficit K s' < deficit K s := h
        have hless' : deficit K s' < fuel := by omega
        exact ih hless'
      | false => rfl
    · rfl

end

def threeSegments : Kernel 3 where
  highFreePages _ := 1
  segIndex p := ⟨p % 3, Nat.mod_lt p (by decide)⟩
  internal _ := true
  alive _ := true
  deactivateBehind := true
  lockTry _ := true
  isReferenced _ := false

/-- Segment 0 has one inactive page and no free ones, segment 1 two free pages, and segment 2
one page on no queue, which is in the object before the inactive one. -/
def twoResident (lastAlloc : BitVec 64) : State where
  page p :=
    if p = 3 then { Page.init with object := 1, offset := 4096, busy := false, queue := some .inactive }
    else { Page.init with object := 1, busy := false }
  free := [1, 4]
  queued := [3]
  lookup object offset :=
    if object = 1 ∧ offset = 4096 then some 3 else if object = 1 ∧ offset = 0 then some 2 else none
  lastAlloc _ := lastAlloc
  tries := 0

end Mach.Vm.PageBalance
