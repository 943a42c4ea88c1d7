import Mach.Device.NetFilter

/-!
# The order of the filters

The filters of a list are to be in the order of their priorities, so that a packet goes to
the most important ones first, and to no other after one of high priority has taken it.
Taking filters off keeps the order (`Shrinks`), and so does the promotion of a filter over
one of the same priority. A new filter goes to the end of the lists, wherever it belongs;
the order is kept as long as it does belong there (`InTurn`).
-/

namespace Mach.Device.NetFilter

open Mach.Lib Function List Bool

variable {s s' s'' : Iface} {id : FilterId} {d : Dir} {r : Request} {p : Packet}

/-- The list is in the order of priority, the highest first. -/
def Sorted (s : Iface) (d : Dir) : Prop :=
  (s.ports d).Pairwise fun a b => (s.filters b).priority ≤ (s.filters a).priority

structure Tidy (s : Iface) : Prop where
  nodup : ∀ d, (s.ports d).Nodup
  faces : ∀ d, ∀ id ∈ s.ports d, faces d (s.filters id).filter
  used : ∀ d i, .hash i ∈ s.ports d → s.nKeys i ≠ 0
  old : ∀ d n, .own n ∈ s.ports d → n < s.nextFilter

/-! ## Fewer filters -/

structure Shrinks (s s' : Iface) : Prop where
  sub : ∀ d, (s'.ports d).Sublist (s.ports d)
  priority : ∀ id, (s'.filters id).priority = (s.filters id).priority
  filter : ∀ id, (s'.filters id).filter = (s.filters id).filter
  rcvPort : ∀ id, (s'.filters id).rcvPort = (s.filters id).rcvPort
  nKeys : ∀ i, s'.nKeys i = s.nKeys i ∨ ∀ d, .hash i ∉ s'.ports d
  nextFilter : s'.nextFilter = s.nextFilter

theorem Shrinks.refl (s : Iface) : Shrinks s s :=
  ⟨fun _ => List.Sublist.refl _, fun _ => rfl, fun _ => rfl, fun _ => rfl, fun _ => .inl rfl, rfl⟩

theorem Shrinks.trans (h : Shrinks s s') (h' : Shrinks s' s'') : Shrinks s s'' where
  sub d := (h'.sub d).trans (h.sub d)
  priority id := (h'.priority id).trans (h.priority id)
  filter id := (h'.filter id).trans (h.filter id)
  rcvPort id := (h'.rcvPort id).trans (h.rcvPort id)
  nKeys i := by
    rcases h'.nKeys i with h2 | h2
    · rcases h.nKeys i with h1 | h1
      · exact .inl (h2.trans h1)
      · exact .inr fun d hmem => h1 d ((h'.sub d).subset hmem)
    · exact .inr h2
  nextFilter := h'.nextFilter.trans h.nextFilter

theorem Shrinks.tidy (h : Shrinks s s') (ht : Tidy s) : Tidy s' where
  nodup d := (ht.nodup d).sublist (h.sub d)
  faces d id hmem := by
    rw [h.filter]
    exact ht.faces d id ((h.sub d).subset hmem)
  used d i hmem := by
    rcases h.nKeys i with hk | hk
    · rw [hk]
      exact ht.used d i ((h.sub d).subset hmem)
    · exact absurd hmem (hk d)
  old d n hmem := by
    rw [h.nextFilter]
    exact ht.old d n ((h.sub d).subset hmem)

theorem Shrinks.sorted (h : Shrinks s s') (hs : Sorted s d) : Sorted s' d := by
  refine (hs.sublist (h.sub d)).imp ?_
  intro a b hab
  rw [h.priority, h.priority]
  exact hab

variable {α : Type} {f : Filter}

theorem Shrinks.foldl {g : Iface → α → Iface} (hg : ∀ s x, Tidy s → Shrinks s (g s x)) (l : List α)
    (ht : Tidy s) :
    Shrinks s (l.foldl g s) := by
  induction l generalizing s with
  | nil => exact .refl s
  | cons x l ih =>
    have hx := hg s x ht
    exact hx.trans (ih (hx.tidy ht))

theorem update_field {β : Type} (g : Filter → β) (h : g f = g (s.filters id)) (id' : FilterId) :
    g (update s.filters id f id') = g (s.filters id') := by
  by_cases he : id' = id
  · rw [he, update_self, h]
  · rw [update_of_ne he]

theorem shrinks_update (hp : f.priority = (s.filters id).priority)
    (hf : f.filter = (s.filters id).filter) (hr : f.rcvPort = (s.filters id).rcvPort) :
    Shrinks s { s with filters := update s.filters id f } where
  sub _ := List.Sublist.refl _
  priority := update_field Filter.priority hp
  filter := update_field Filter.filter hf
  rcvPort := update_field Filter.rcvPort hr
  nKeys _ := .inl rfl
  nextFilter := rfl

theorem setTable_shrinks (s : Iface) (id : FilterId) (b : Nat) (es : List Entry) (refs : Int) :
    Shrinks s (s.setTable id b es refs) := shrinks_update rfl rfl rfl

theorem count_shrinks (s : Iface) (id : FilterId) : Shrinks s (s.count id) :=
  shrinks_update rfl rfl rfl

theorem unlist_shrinks (s : Iface) (id : FilterId) : Shrinks s (s.unlist id) := by
  refine { Shrinks.refl s with sub := fun d => ?_, nKeys := fun _ => .inl rfl }
  simp only [Iface.unlist]
  split
  · exact erase_sublist
  · exact List.Sublist.refl _

theorem Tidy.not_mem_unlist (ht : Tidy s) (id : FilterId) (d : Dir) :
    id ∉ (s.unlist id).ports d := by
  simp only [Iface.unlist]
  split
  · exact (ht.nodup d).not_mem_erase
  next hf => exact fun hmem => hf (ht.faces d id hmem)

theorem retire_shrinks (ht : Tidy s) (id : FilterId) : Shrinks s (s.retire id) := by
  cases id with
  | own n => exact unlist_shrinks s _
  | hash i =>
    have h := unlist_shrinks s (.hash i)
    refine { h with nKeys := fun j => ?_ }
    by_cases hj : j = i
    · rw [hj]
      exact .inr (ht.not_mem_unlist (.hash i))
    · exact .inl (update_of_ne hj _ _)

theorem hashEntRemove_shrinks (ht : Tidy s) (id : FilterId) (used : Bool) (b : Nat) (e : Entry) :
    Shrinks s (hashEntRemove s id used b e).1 := by
  unfold hashEntRemove
  have h := setTable_shrinks s id b (((s.filters id).table b).erase e)
    (int ((s.filters id).refCount - 1))
  simp only
  split
  · exact h.trans (retire_shrinks (h.tidy ht) id)
  · exact h

/-! ## The old filters make way -/

theorem gcBucket_shrinks (ht : Tidy s) (id : FilterId) (dead : Entry → Bool) (used : Bool)
    (b : Nat) : Shrinks s (gcBucket s id dead used b).1 := by
  unfold gcBucket
  split
  · exact .refl s
  split
  · exact hashEntRemove_shrinks ht id used b _
  · exact Shrinks.foldl (fun s e ht => hashEntRemove_shrinks ht id used b e) _ ht

theorem gcTable_shrinks (id : FilterId) (dead : Entry → Bool) (used : Bool) (bs : List Nat) :
    ∀ {s : Iface}, Tidy s → Shrinks s (gcTable id dead used s bs) := by
  induction bs with
  | nil =>
    intro s _
    exact .refl s
  | cons b bs ih =>
    intro s ht
    have h := gcBucket_shrinks ht id dead used b
    rw [gcTable]
    split
    · exact h
    · exact h.trans (ih (h.tidy ht))

theorem checkFilter_shrinks {acc : Iface × Option FilterId} (ht : Tidy acc.1) (id : FilterId) :
    Shrinks acc.1 (checkFilter r acc id).1 := by
  unfold checkFilter
  simp only
  split
  · exact gcTable_shrinks id _ _ _ ht
  split
  · exact unlist_shrinks _ id
  · exact .refl _

theorem checkFilterList_shrinks (acc : Iface × Option FilterId) (ht : Tidy acc.1) (d : Dir) :
    Shrinks acc.1 (checkFilterList r d acc).1 := by
  unfold checkFilterList
  split
  · generalize acc.1.ports d = l
    induction l generalizing acc with
    | nil => exact .refl _
    | cons id l ih =>
      have h := checkFilter_shrinks (r := r) ht id
      exact h.trans (ih _ (h.tidy ht))
  · exact .refl _

theorem checkLists_shrinks (ht : Tidy s) (r : Request) : Shrinks s (checkLists s r).1 := by
  have h := checkFilterList_shrinks (r := r)
    (s, if (matchKeys r.filter).isNone then some (.own s.nextFilter) else none) ht .rcv
  exact h.trans (checkFilterList_shrinks _ (h.tidy ht) .snd)

/-! ## A new filter -/

theorem validateLoop_keys {f : Bpf.Code} : ∀ (n i : Nat) (found : Option Nat) {m : Nat},
      Bpf.validateLoop f n i found = some (some m) → found = some m ∨ (f.insn m).jt ≠ 0 := by
  intro n
  induction n with
  | zero =>
    intro i found m h
    cases h
    exact .inl rfl
  | succ n ih =>
    intro i found m h
    rw [Bpf.validateLoop] at h
    split at h
    · simp only at h
      split at h
      · cases h
      split at h
      · split at h
        · cases h
        rename_i hfew
        split at h
        · cases h
        split at h
        · cases h
        rcases ih _ _ h with hm | hm
        · cases hm
          exact .inr fun hz => hfew (.inr (.inl hz))
        · exact .inr hm
      · exact ih _ _ h
    · cases h
      exact .inl rfl

theorem matchKeys_ne_nil {filter : List Word} {keys : List (BitVec 32)}
    (h : matchKeys filter = some keys) : keys.length ≠ 0 := by
  unfold matchKeys at h
  split at h
  · simp only at h
    split at h
    next i hi =>
      cases h
      rcases validateLoop_keys _ _ _ hi with hn | hjt
      · cases hn
      · rw [length_map, length_range]
        intro hz
        exact hjt (BitVec.eq_of_toNat_eq hz)
    · cases h
  · cases h

structure Inv (s : Iface) : Prop extends Tidy s where
  sorted : ∀ d, Sorted s d

theorem Shrinks.inv (h : Shrinks s s') (hi : Inv s) : Inv s' :=
  ⟨h.tidy hi.toTidy, fun d => h.sorted (hi.sorted d)⟩

theorem insertEntry_shrinks (s : Iface) (id : FilterId) (port : Nat) (keys : List (BitVec 32)) :
    Shrinks s (s.insertEntry id port keys) := by
  have h := setTable_shrinks s id (Bpf.bpfHash keys.length fun i => keys.getD i 0)
    ((s.filters id).table (Bpf.bpfHash keys.length fun i => keys.getD i 0) ++
      [⟨s.nextEntry, port, keys⟩]) (int ((s.filters id).refCount + 1))
  exact { h with }

theorem mem_enter {id' : FilterId} (h : id' ∈ (s.enter id f).ports d) :
    id' ∈ s.ports d ∨ id' = id ∧ faces d f.filter := by
  simp only [Iface.enter] at h
  split at h
  next hf =>
    rcases mem_append.mp h with h | h
    · exact .inl h
    · exact .inr ⟨mem_singleton.mp h, hf⟩
  next => exact .inl h

theorem Inv.enter (hi : Inv s) {nKeys : Nat → Nat} {nextFilter : Nat} (hnew : ∀ d, id ∉ s.ports d)
    (hlow : ∀ d, NetFilter.faces d f.filter → ∀ q ∈ s.ports d, f.priority ≤ (s.filters q).priority)
    (hused : ∀ i, s.nKeys i ≠ 0 ∨ .hash i = id → nKeys i ≠ 0)
    (hold : ∀ n, n < s.nextFilter ∨ .own n = id → n < nextFilter) :
    Inv { s.enter id f with nKeys := nKeys, nextFilter := nextFilter } := by
  have hother : ∀ d, ∀ q ∈ s.ports d, update s.filters id f q = s.filters q := by
    intro d q hq
    apply update_of_ne
    intro he
    exact hnew d (he ▸ hq)
  refine ⟨⟨fun d => ?_, fun d q hq => ?_, fun d i hq => ?_, fun d n hq => ?_⟩, fun d => ?_⟩
  · simp only [Iface.enter]
    split
    · refine nodup_append.mpr ⟨hi.nodup d, pairwise_singleton _ id, fun a ha b hb he => ?_⟩
      rw [he, mem_singleton.mp hb] at ha
      exact hnew d ha
    · exact hi.nodup d
  · simp only [Iface.enter]
    rcases mem_enter hq with hq | ⟨rfl, hf⟩
    · rw [hother d q hq]
      exact hi.faces d q hq
    · rw [update_self]
      exact hf
  · rcases mem_enter hq with hq | ⟨he, -⟩
    · exact hused i (.inl (hi.used d i hq))
    · exact hused i (.inr he)
  · rcases mem_enter hq with hq | ⟨he, -⟩
    · exact hold n (.inl (hi.old d n hq))
    · exact hold n (.inr he)
  · have hsame : (s.ports d).Pairwise fun a b =>
        (update s.filters id f b).priority ≤ (update s.filters id f a).priority := by
      refine (hi.sorted d).imp_of_mem ?_
      intro a b ha hb hab
      rw [hother d a ha, hother d b hb]
      exact hab
    simp only [Sorted, Iface.enter]
    split
    next hf =>
      refine pairwise_append.mpr ⟨hsame, pairwise_singleton _ _, fun a ha b hb => ?_⟩
      rw [mem_singleton.mp hb, update_self, hother d a ha]
      exact hlow d hf a ha
    next => exact hsame

def Fits (s : Iface) (r : Request) : Prop :=
  (matchKeys r.filter).isNone ∨ (checkLists s r).2 = none →
    ∀ d, faces d r.filter → ∀ q ∈ (checkLists s r).1.ports d,
      r.priority ≤ ((checkLists s r).1.filters q).priority

theorem freeHeader_spec {i : Nat} (h : freeHeader s r = some i) : s.nKeys i = 0 := by
  have := List.find?_some h
  simp only [decide_eq_true_eq] at this
  exact this.1

theorem netSetFilter_inv (hi : Inv s) (hfits : Fits s r) : Inv (netSetFilter s r).2 := by
  unfold netSetFilter
  split
  next hwf =>
    have hsh := checkLists_shrinks hi.toTidy r
    have hchecked := hsh.inv hi
    simp only
    split
    next _ hkeys =>
      have hnext := hsh.nextFilter
      refine hchecked.enter (fun d hmem => ?_) (hfits (.inl (by rw [hkeys]; rfl))) ?_ ?_
      · have := hchecked.old d _ hmem
        omega
      · intro i hor
        rcases hor with hk | he
        · exact hk
        · cases he
      · intro n hor
        rcases hor with hlt | he
        · omega
        · cases he
          omega
    next keys id hkeys hmy => exact (insertEntry_shrinks _ _ _ _).inv hchecked
    next keys hkeys hmy =>
      split
      · exact hchecked
      next i hfree =>
        refine (insertEntry_shrinks _ _ _ _).inv ?_
        have hzero := freeHeader_spec hfree
        refine hchecked.enter (fun d hmem => hchecked.used d i hmem hzero) (hfits (.inr hmy)) ?_ ?_
        · intro j hor
          by_cases hj : j = i
          · rw [hj, update_self]
            exact matchKeys_ne_nil hkeys
          · rw [update_of_ne hj]
            rcases hor with hk | he
            · exact hk
            · cases he
              exact absurd rfl hj
        · intro n hor
          rcases hor with hlt | he
          · exact hlt
          · cases he
  next => exact hi

/-! ## A packet -/

theorem dropDead_shrinks (ht : Tidy s) (p : Packet) (id : FilterId) :
    Shrinks s (dropDead s p id) := by
  unfold dropDead
  split
  · exact .refl s
  · exact unlist_shrinks s id
  · exact hashEntRemove_shrinks ht id false _ _

theorem filterLoop_shrinks (p : Packet) (l : List FilterId) :
    ∀ {s : Iface} (sendList : List (FilterId × Nat)), Tidy s →
      Shrinks s (filterLoop p l s sendList).1 := by
  induction l with
  | nil =>
    intro s _ _
    exact .refl s
  | cons id l ih =>
    intro s sendList ht
    rw [filterLoop]
    split
    · have h := dropDead_shrinks ht p id
      exact h.trans (ih sendList (h.tidy ht))
    have h := count_shrinks s id
    split
    · exact .refl s
    · split
      · exact h
      · exact h.trans (ih _ (h.tidy ht))

theorem swap_perm (q id : FilterId) (l : List FilterId) : (swap q id l).Perm l := by
  induction l with
  | nil => exact .refl _
  | cons a l ih =>
    cases l with
    | nil => exact .refl _
    | cons b l =>
      rw [swap]
      split
      · exact .swap _ _ _
      · exact ih.cons a

theorem swap_pairwise {R : FilterId → FilterId → Prop} {q : FilterId} (hr : R id q)
    {l : List FilterId} (h : l.Pairwise R) : (swap q id l).Pairwise R := by
  induction l with
  | nil => exact h
  | cons a l ih =>
    cases l with
    | nil => exact h
    | cons b l =>
      obtain ⟨ha, hl⟩ := pairwise_cons.mp h
      rw [swap]
      split
      next hab =>
        obtain ⟨hb, hl⟩ := pairwise_cons.mp hl
        refine pairwise_cons.mpr ⟨fun x hx => ?_, pairwise_cons.mpr ⟨fun x hx => ?_, hl⟩⟩
        · rcases mem_cons.mp hx with rfl | hx
          · rw [hab.1, hab.2]
            exact hr
          · exact hb x hx
        · exact ha x (mem_cons_of_mem b hx)
      next =>
        refine pairwise_cons.mpr ⟨fun x hx => ?_, ih hl⟩
        exact ha x ((swap_perm q id (b :: l)).mem_iff.mp hx)

theorem Inv.reorder (hi : Inv s) {l : List FilterId} (hperm : l.Perm (s.ports d))
    (hsorted : l.Pairwise fun a b => (s.filters b).priority ≤ (s.filters a).priority) :
    Inv { s with ports := update s.ports d l } := by
  have hlist : ∀ d', (update s.ports d l d').Perm (s.ports d') := by
    intro d'
    by_cases hd : d' = d
    · rwa [hd, update_self]
    · rw [update_of_ne hd]
  refine ⟨⟨fun d' => (hlist d').nodup_iff.mpr (hi.nodup d'),
    fun d' q hq => hi.faces d' q ((hlist d').subset hq),
    fun d' i hq => hi.used d' i ((hlist d').subset hq),
    fun d' n hq => hi.old d' n ((hlist d').subset hq)⟩, fun d' => ?_⟩
  by_cases hd : d' = d
  · simp only [Sorted, hd, update_self]
    exact hsorted
  · simp only [Sorted, update_of_ne hd]
    exact hi.sorted d'

theorem reorderPrio_inv (hi : Inv s) (h : reorderPrio s p d id = some s') : Inv s' := by
  unfold reorderPrio at h
  split at h
  · cases h
    exact hi
  next q _ =>
    split at h
    next hpro =>
      cases d with
      | snd => cases h
      | rcv =>
        cases h
        refine hi.reorder (swap_perm q id _) (swap_pairwise ?_ (hi.sorted .rcv))
        simp only [promotes, decide_eq_true_eq] at hpro
        exact Int.le_of_eq hpro.1.symm
    next =>
      cases h
      exact hi
  · split at h
    · cases h
    · cases h
      exact hi

theorem netFilter_inv (hi : Inv s) (h : netFilter s p = some s') : Inv s' := by
  have hloop := (filterLoop_shrinks p (s.ports p.dir) [] hi.toTidy).inv hi
  unfold netFilter at h
  split at h
  next t sendList heq =>
    cases h
    rw [heq] at hloop
    exact hloop
  next t sendList id heq =>
    rw [heq] at hloop
    obtain ⟨u, hu, h⟩ := Option.bind_eq_some_iff.mp h
    exact reorderPrio_inv (reorderPrio_inv hloop hu) h

/-- No promotion of the filter `id` would use links that `reorder_queue` cannot. -/
def Links (s : Iface) (p : Packet) (id : FilterId) (d : Dir) : Prop :=
  match s.before p d id with
  | .head => True
  | .filter q => d = .rcv ∨ ¬ promotes s p id (s.filters q).priority (s.filters q).rcvCount
  | .stray => ¬ promotes s p id (p.stray d).1 (p.stray d).2

/-- The packet, if it ends at a filter of high priority, promotes it at most on the list of
those for packets that come in. -/
def Tame (s : Iface) (p : Packet) : Prop :=
  ∀ id, (filterLoop p (s.ports p.dir) s []).2.2 = some id →
    ∀ d, Links (filterLoop p (s.ports p.dir) s []).1 p id d

theorem reorderPrio_isSome (h : Links s p id d) : ∃ s', reorderPrio s p d id = some s' ∧
    s'.filters = s.filters ∧ (d = .rcv → s'.ports .snd = s.ports .snd) := by
  unfold Links at h
  unfold reorderPrio
  split
  · exact ⟨s, rfl, rfl, fun _ => rfl⟩
  next q hq =>
    simp only [hq] at h
    split
    next hpro =>
      rcases h with rfl | h
      · exact ⟨_, rfl, rfl, fun _ => rfl⟩
      · exact absurd hpro h
    next => exact ⟨s, rfl, rfl, fun _ => rfl⟩
  next hq =>
    simp only [hq] at h
    rw [if_neg h]
    exact ⟨s, rfl, rfl, fun _ => rfl⟩

theorem netFilter_isSome (h : Tame s p) : (netFilter s p).isSome := by
  unfold Tame at h
  unfold netFilter
  split
  · rfl
  next t sendList id heq =>
    rw [heq] at h
    obtain ⟨u, hu, hf, hp⟩ := reorderPrio_isSome (h id rfl .rcv)
    have hsnd : Links u p id .snd := by
      have := h id rfl .snd
      unfold Links Iface.before promotes at this ⊢
      rw [hf, hp rfl]
      exact this
    obtain ⟨v, hv, -⟩ := reorderPrio_isSome hsnd
    rw [hu]
    simp only [Option.bind_some, hv]
    rfl

/-! ## Whom a packet is sent to -/

def takes (s : Iface) (p : Packet) (id : FilterId) : Bool := ((dest s p id).filter p.alive).isSome

def high (s : Iface) (id : FilterId) : Bool := (s.filters id).priority ≥ netHiPri

def upTo {α : Type} (stop : α → Bool) : List α → List α
  | [] => []
  | a :: l => if stop a then [a] else a :: upTo stop l

theorem upTo_of_forall_not {stop : α → Bool} {l : List α} (h : ∀ a ∈ l, stop a = false) :
    upTo stop l = l := by
  induction l with
  | nil => rfl
  | cons a l ih =>
    rw [upTo, if_neg (by rw [h a mem_cons_self]; exact false_ne_true),
      ih fun b hb => h b (mem_cons_of_mem a hb)]

theorem upTo_append {stop : α → Bool} {l : List α} {a : α} (rest : List α)
    (h : ∀ b ∈ l, stop b = false) (ha : stop a = true) : upTo stop (l ++ a :: rest) = l ++ [a] := by
  induction l with
  | nil => rw [nil_append, upTo, if_pos ha, nil_append]
  | cons b l ih =>
    rw [cons_append, upTo, if_neg (by rw [h b mem_cons_self]; exact false_ne_true),
      ih fun c hc => h c (mem_cons_of_mem b hc), cons_append]

theorem Shrinks.takes_eq (h : Shrinks s s') : takes s' p = takes s p := by
  funext id
  unfold takes dest
  rw [h.rcvPort]

theorem Shrinks.high_eq (h : Shrinks s s') : high s' = high s := by
  funext id
  unfold high
  rw [h.priority]

theorem filterLoop_sent (p : Packet) (l : List FilterId) :
    ∀ {s : Iface} (sendList : List (FilterId × Nat)), Tidy s →
      sendList.length + l.countP (takes s p) ≤ p.buffers + 1 →
      (filterLoop p l s sendList).2.1.map Prod.fst =
        sendList.map Prod.fst ++ upTo (high s) (l.filter (takes s p)) := by
  induction l with
  | nil =>
    intro s sendList _ _
    exact (append_nil _).symm
  | cons id l ih =>
    intro s sendList ht hbuf
    rw [filterLoop]
    cases hd : (dest s p id).filter p.alive with
    | none =>
      have hno : takes s p id = false := by rw [takes, hd]; rfl
      have h := dropDead_shrinks ht p id
      rw [filter_cons, hno]
      rw [countP_cons, hno] at hbuf
      simp only [false_eq_true, if_false]
      rw [ih sendList (h.tidy ht), h.takes_eq, h.high_eq]
      rw [h.takes_eq]
      simpa using hbuf
    | some port =>
      have hyes : takes s p id = true := by rw [takes, hd]; rfl
      have h := count_shrinks s id
      rw [countP_cons, hyes] at hbuf
      rw [filter_cons, hyes, if_pos rfl, upTo]
      simp only [if_true] at hbuf ⊢
      rw [if_neg (by omega)]
      by_cases hp : (s.filters id).priority ≥ netHiPri
      · have hhigh : high s id = true := decide_eq_true hp
        rw [if_pos hp, if_pos hhigh, map_append]
        rfl
      · have hlow : ¬ high s id = true := by rw [high, decide_eq_true_eq]; exact hp
        rw [if_neg hp, if_neg hlow, ih _ (h.tidy ht), h.takes_eq, h.high_eq, map_append,
          append_assoc]
        · rfl
        rw [h.takes_eq, length_append]
        simp only [length_cons, length_nil]
        omega

def receivers (s : Iface) (p : Packet) : List FilterId := (recipients s p).map Prod.fst

def Enough (s : Iface) (p : Packet) : Prop := (s.ports p.dir).countP (takes s p) ≤ p.buffers + 1

def firstHigh (s : Iface) (p : Packet) : Option FilterId :=
  (s.ports p.dir).find? fun id => takes s p id && high s id

/-- The packet goes to those who take it and are above the first of high priority, to this
one, and to nobody below it; to all who take it if there is none of high priority. -/
structure Orderly (s : Iface) (p : Packet) : Prop where
  only : ∀ q ∈ receivers s p, q ∈ s.ports p.dir ∧ takes s p q
  first : ∀ f, firstHigh s p = some f → f ∈ receivers s p
  above : ∀ f, firstHigh s p = some f → ∀ q ∈ s.ports p.dir, takes s p q →
    (s.filters f).priority < (s.filters q).priority → q ∈ receivers s p
  below : ∀ f, firstHigh s p = some f → ∀ q ∈ receivers s p,
    (s.filters f).priority ≤ (s.filters q).priority
  all : firstHigh s p = none → ∀ q ∈ s.ports p.dir, takes s p q → q ∈ receivers s p

section

variable (ht : Tidy s) (hbuf : Enough s p)
include ht hbuf

theorem receivers_eq : receivers s p = upTo (high s) ((s.ports p.dir).filter (takes s p)) := by
  have h := filterLoop_sent p (s.ports p.dir) [] ht (by
    rw [length_nil, Nat.zero_add]
    exact hbuf)
  exact h.trans (nil_append _)

theorem firstHigh_split {f : FilterId}
    (h : firstHigh s p = some f) : ∃ l1 l2, s.ports p.dir = l1 ++ f :: l2 ∧ takes s p f ∧
      high s f ∧ (∀ q ∈ l1, takes s p q → high s q = false) ∧
      receivers s p = l1.filter (takes s p) ++ [f] := by
  obtain ⟨hf, l1, l2, hl, hbefore⟩ := List.find?_eq_some_iff_append.mp h
  rw [Bool.and_eq_true] at hf
  have hlow : ∀ q ∈ l1, takes s p q → high s q = false := by
    intro q hq htk
    have := hbefore q hq
    rw [htk, Bool.not_eq_true'] at this
    exact this
  refine ⟨l1, l2, hl, hf.1, hf.2, hlow, ?_⟩
  rw [receivers_eq ht hbuf, hl, filter_append, filter_cons, if_pos hf.1]
  apply upTo_append
  · intro q hq
    obtain ⟨hq, htk⟩ := mem_filter.mp hq
    exact hlow q hq htk
  · exact hf.2

theorem receivers_of_none (h : firstHigh s p = none) :
    receivers s p = (s.ports p.dir).filter (takes s p) := by
  rw [receivers_eq ht hbuf]
  apply upTo_of_forall_not
  intro q hq
  obtain ⟨hq, htk⟩ := mem_filter.mp hq
  have hno := List.find?_eq_none.mp h q hq
  rw [htk, Bool.not_eq_true] at hno
  exact hno

end

theorem orderly (hi : Inv s) (hbuf : Enough s p) : Orderly s p where
  only q hq := by
    cases hfirst : firstHigh s p with
    | some f =>
      obtain ⟨l1, l2, hl, htk, -, -, hr⟩ := firstHigh_split hi.toTidy hbuf hfirst
      rw [hr] at hq
      rw [hl]
      rcases mem_append.mp hq with hq | hq
      · obtain ⟨hq, hqt⟩ := mem_filter.mp hq
        exact ⟨mem_append_left _ hq, hqt⟩
      · rw [mem_singleton.mp hq]
        exact ⟨mem_append_right _ mem_cons_self, htk⟩
    | none =>
      rw [receivers_of_none hi.toTidy hbuf hfirst] at hq
      exact mem_filter.mp hq
  first f hf := by
    obtain ⟨l1, l2, -, -, -, -, hr⟩ := firstHigh_split hi.toTidy hbuf hf
    rw [hr]
    exact mem_append_right _ (mem_singleton_self f)
  above f hf q hq htk hlt := by
    obtain ⟨l1, l2, hl, -, hhigh, hlow, -⟩ := firstHigh_split hi.toTidy hbuf hf
    have hsorted := hi.sorted p.dir
    rw [Sorted, hl] at hsorted
    rw [hl] at hq
    rw [high, decide_eq_true_eq] at hhigh
    -- before the first of high priority nobody takes the packet, and after it none is above
    rcases mem_append.mp hq with hq | hq
    · have := hlow q hq htk
      rw [high, decide_eq_false_iff_not] at this
      omega
    · rcases mem_cons.mp hq with rfl | hq
      · omega
      · have := (pairwise_cons.mp (pairwise_append.mp hsorted).2.1).1 q hq
        omega
  below f hf q hq := by
    obtain ⟨l1, l2, hl, -, -, -, hr⟩ := firstHigh_split hi.toTidy hbuf hf
    have hsorted := hi.sorted p.dir
    rw [Sorted, hl] at hsorted
    rw [hr] at hq
    rcases mem_append.mp hq with hq | hq
    · exact (pairwise_append.mp hsorted).2.2 q (mem_filter.mp hq).1 f mem_cons_self
    · exact Int.le_of_eq (by rw [mem_singleton.mp hq])
  all hnone q hq htk := by
    rw [receivers_of_none hi.toTidy hbuf hnone]
    exact mem_filter.mpr ⟨hq, htk⟩

/-! ## Runs -/

/-- New filters are below those that stay on their lists, and packets promote filters only
where this is defined. -/
def InTurn (s : Iface) : Act → Prop
  | .set r => Fits s r
  | .packet p => Tame s p

theorem inv_of_reach (h : lts.Reach InTurn s) : Inv s := by
  refine Lts.Reach.inv ?_ ?_ h
  · rintro s ⟨hports, -⟩
    have hno : ∀ d id, id ∉ s.ports d := fun d id => by simp [hports]
    refine ⟨⟨fun d => ?_, fun d q hq => absurd hq (hno d q), fun d i hq => absurd hq (hno d _),
      fun d n hq => absurd hq (hno d _)⟩, fun d => ?_⟩
    · rw [hports]
      exact .nil
    · rw [Sorted, hports]
      exact .nil
  · intro s a s' hi hok hs
    cases a with
    | set r =>
      cases hs
      exact netSetFilter_inv hi hok
    | packet p => exact netFilter_inv hi hs

/-- **Filters in order**: if every new filter is below those that stay on its lists, both
lists are in the order of priority and every packet goes where this order says. -/
theorem filters_in_order (h : lts.Reach InTurn s) :
    (∀ d, Sorted s d) ∧ (∀ p, Enough s p → Orderly s p) ∧
      ∀ p, Tame s p → (netFilter s p).isSome := by
  have hi := inv_of_reach h
  exact ⟨hi.sorted, fun p hbuf => orderly hi hbuf, fun p htame => netFilter_isSome htame⟩

def noFilters : Iface :=
  ⟨fun _ => ⟨none, 0, 0, [], 0, fun _ => []⟩, fun _ => [], fun _ => 0, 0, 0⟩

def wantAll (port : Nat) (priority : Int) : Request := ⟨port, priority, [1], fun _ => true, []⟩

def forAll : Packet :=
  ⟨false, fun _ => .own, fun _ => true, 10, false, fun _ => (0, 0)⟩

theorem noFilters_fresh : lts.init noFilters := ⟨fun _ => rfl, fun _ => rfl⟩

def twoFilters (priority₁ priority₂ : Int) : Iface :=
  (netSetFilter (netSetFilter noFilters (wantAll 1 priority₁)).2 (wantAll 2 priority₂)).2

theorem twoFilters_run (priority1 priority2 : Int) :
    lts.run noFilters [.set (wantAll 1 priority1), .set (wantAll 2 priority2)] =
      some (twoFilters priority1 priority2) := rfl

/-- Filters that are set in the order of priority. -/
theorem twoFilters_inOrder : Orderly (twoFilters 200 150) forAll ∧
    receivers (twoFilters 200 150) forAll = [.own 0] := by
  have hok : lts.okRun InTurn noFilters [.set (wantAll 1 200), .set (wantAll 2 150)] := by
    refine ⟨?_, ?_, trivial⟩
    · intro _ d _ q hq
      cases d <;> cases hq
    · intro _ d _
      cases d <;> decide
  have hreach := Lts.Reach.run _ (.start noFilters_fresh) hok (twoFilters_run 200 150)
  have hbuf : Enough (twoFilters 200 150) forAll := by
    unfold Enough
    decide
  exact ⟨(filters_in_order hreach).2.1 forAll hbuf, by decide⟩

/-- A filter that is set after one of lower priority is behind it, and packets that both
accept do not reach it. -/
theorem twoFilters_outOfOrder : lts.Reach anyStep (twoFilters 150 200) ∧
    ¬ Sorted (twoFilters 150 200) .rcv ∧ receivers (twoFilters 150 200) forAll = [.own 0] ∧
    ((twoFilters 150 200).filters (.own 0)).priority <
      ((twoFilters 150 200).filters (.own 1)).priority ∧
    ¬ Orderly (twoFilters 150 200) forAll := by
  have hreceivers : receivers (twoFilters 150 200) forAll = [.own 0] := by decide
  have hlt : ((twoFilters 150 200).filters (.own 0)).priority <
      ((twoFilters 150 200).filters (.own 1)).priority := by decide
  refine ⟨.run _ (.start noFilters_fresh) (Lts.okRun_any _ _ _) (twoFilters_run 150 200), ?_,
    hreceivers, hlt, fun horderly => ?_⟩
  · intro hsorted
    have := (pairwise_cons.mp hsorted).1 (.own 1) mem_cons_self
    exact absurd this (Int.not_le.mpr hlt)
  · have := horderly.above (.own 0) (by decide) (.own 1) (by decide)
      (by decide) hlt
    cases mem_singleton.mp this

end Mach.Device.NetFilter
