import Mach.Lib.Transition
import Mach.Vm.Compress

/-!
# The store of compressed pages

`vm_page_compress`, `vm_page_decompress` and `vm_page_compress_remove` on the hash table
of `vm/vm_compress.c`, and what the store is for: to give back, for an object and an
offset, the page that was stored last.

`vm_page_compress` adds at the end of a bucket and does not look for an entry with the same
key; `vm_page_decompress` takes the first. So the store gives back what was stored last as
long as no key is stored twice, and pages come out as they went in if they are clean.
-/

namespace Mach.Vm.Compress

open Function List

structure Page where
  bytes : List UInt8
  size : bytes.length = pageSize

instance : DecidableEq Page := fun p q =>
  decidable_of_iff (p.bytes = q.bytes) (by cases p; cases q; simp)

abbrev Key := UInt64 × UInt64

/-- `struct vm_compressed_page`. -/
structure CompressedPage where
  key : Key
  data : List UInt8
  deriving DecidableEq

structure Store where
  buckets : Nat → List CompressedPage
  compressedPages : UInt32
  decompressedPages : UInt32
  ratioSum : UInt32

/-- `vm_compress_hash`. -/
def vmCompressHash (k : Key) : Nat := (k.1 ^^^ (k.2 >>> 12)).toNat % 512

inductive KernReturn
  | success | failure | resourceShortage
  deriving DecidableEq

/-- The allocations of `vm_page_compress` that succeed. -/
structure Memory where
  entry : Bool
  buffer : Bool
  data : Bool
  deriving DecidableEq

namespace Store

def setBucket (s : Store) (i : Nat) (l : List CompressedPage) : Store :=
  { s with buckets := update s.buckets i l }

def find (s : Store) (k : Key) : Option CompressedPage :=
  (s.buckets (vmCompressHash k)).find? (·.key = k)

def unlink (s : Store) (k : Key) : Store :=
  s.setBucket (vmCompressHash k) ((s.buckets (vmCompressHash k)).eraseP (·.key = k))

end Store

/-- `vm_page_compress`. -/
def vmPageCompress (s : Store) (k : Key) (page : Page) (memory : Memory) : KernReturn × Store :=
  if ¬ memory.entry then (.resourceShortage, s)
  else if ¬ memory.buffer then (.resourceShortage, s)
  else
    let compressed := simpleCompress page.bytes pageSize
    if compressed.length = 0 ∨ compressed.length ≥ pageSize then (.failure, s)
    else if ¬ memory.data then (.resourceShortage, s)
    else
      let s := s.setBucket (vmCompressHash k) (s.buckets (vmCompressHash k) ++ [⟨k, compressed⟩])
      (.success, { s with
        compressedPages := s.compressedPages + 1
        ratioSum := s.ratioSum + UInt32.ofNat (pageSize * 100 / compressed.length) })

theorem length_simpleDecompress (data : List UInt8) (page : Page) :
    (simpleDecompress data page.bytes).2.length = pageSize := by
  have hle := @decompressLoop_length page.bytes.length data [] (Nat.zero_le _)
  simp only [simpleDecompress, length_append, length_drop]
  rw [← page.size]
  omega

def decompressInto (data : List UInt8) (page : Page) : Page where
  bytes := (simpleDecompress data page.bytes).2
  size := length_simpleDecompress data page

/-- `vm_page_decompress`, unless it panics. -/
def vmPageDecompress (s : Store) (k : Key) (page : Page) : Option (KernReturn × Store × Page) :=
  match s.find k with
  | none => some (.failure, s, page)
  | some c =>
    let s := s.unlink k
    if (simpleDecompress c.data page.bytes).1 then
      some (.success, { s with decompressedPages := s.decompressedPages + 1 },
        decompressInto c.data page)
    else none

/-- `vm_page_compress_remove`. -/
def vmPageCompressRemove (s : Store) (k : Key) : KernReturn × Store :=
  match s.find k with
  | none => (.failure, s)
  | some _ => (.success, s.unlink k)

/-! ## The system -/

/-- The store, and what it should have: the last page that was stored for a key and not
taken or removed since. -/
structure Sys where
  store : Store
  latest : Key → Option Page

inductive Action
  | compress (k : Key) (page : Page) (memory : Memory)
  | decompress (k : Key) (page : Page)
  | remove (k : Key)

def Sys.forget (S : Sys) (k : Key) (r : KernReturn) (s : Store) : Sys :=
  ⟨s, if r = .success then update S.latest k none else S.latest⟩

def step (S : Sys) : Action → Option Sys
  | .compress k page memory =>
    let r := vmPageCompress S.store k page memory
    some ⟨r.2, if r.1 = .success then update S.latest k (some page) else S.latest⟩
  | .decompress k page => (vmPageDecompress S.store k page).map fun r => S.forget k r.1 r.2.1
  | .remove k =>
    let r := vmPageCompressRemove S.store k
    some (S.forget k r.1 r.2)

def init (S : Sys) : Prop := (∀ i, S.store.buckets i = []) ∧ ∀ k, S.latest k = none

def lts : Lib.Lts Sys Action := ⟨init, step⟩

/-- The store gives back what was stored: it does not panic, it has a page for the key if
there should be one, and that is the last one stored. -/
def Sys.GivesBack (S : Sys) : Prop :=
  ∀ k page, ∃ r, vmPageDecompress S.store k page = some r ∧
    match S.latest k with
    | some p => r.1 = .success ∧ r.2.2 = p
    | none => r.1 = .failure ∧ r.2.2 = page

/-- Nothing is stored twice, and only clean pages are. -/
def storesClean (S : Sys) : Action → Prop
  | .compress k page memory => (vmPageCompress S.store k page memory).1 = .success →
      S.latest k = none ∧ Clean page.bytes
  | _ => True

/-! ## Buckets -/

section

variable {α : Type} {p q : α → Bool}

theorem filter_eraseP_self (l : List α) : (l.eraseP p).filter p = (l.filter p).tail := by
  induction l with
  | nil => rfl
  | cons a l ih =>
    cases ha : p a with
    | true => simp [ha]
    | false => simp [ha, ih]

theorem filter_eraseP_of_ne (hpq : ∀ a, p a → ¬ q a) (l : List α) :
    (l.eraseP p).filter q = l.filter q := by
  induction l with
  | nil => rfl
  | cons a l ih =>
    cases ha : p a with
    | true => simp [ha, hpq a ha]
    | false => simp [ha, ih, filter_cons]

end

def Store.entries (s : Store) (k : Key) : List CompressedPage :=
  (s.buckets (vmCompressHash k)).filter (·.key = k)

section

variable {s : Store} {k k' : Key}

theorem Store.find_eq (s : Store) (k : Key) : s.find k = (s.entries k).head? :=
  List.head?_filter.symm

theorem Store.entries_setBucket (s : Store) (k k' : Key) (l : List CompressedPage)
    (hl : vmCompressHash k' = vmCompressHash k → l.filter (·.key = k') = s.entries k') :
    (s.setBucket (vmCompressHash k) l).entries k' = s.entries k' := by
  by_cases hk : vmCompressHash k' = vmCompressHash k
  · refine Eq.trans ?_ (hl hk)
    simp only [Store.entries, Store.setBucket, hk, update_self]
  · simp only [Store.entries, Store.setBucket, update_of_ne hk]

theorem Store.entries_unlink (s : Store) (k k' : Key) :
    (s.unlink k).entries k' = if k' = k then (s.entries k).tail else s.entries k' := by
  split
  next hk =>
    subst hk
    simp only [Store.entries, Store.unlink, Store.setBucket, update_self]
    exact filter_eraseP_self _
  next hk =>
    refine s.entries_setBucket k k' _ fun hhash => ?_
    rw [Store.entries, hhash]
    refine filter_eraseP_of_ne (fun c hc hc' => hk ?_) _
    rw [← of_decide_eq_true hc, ← of_decide_eq_true hc']

theorem Store.entries_add (s : Store) (k k' : Key) (data : List UInt8) :
    (s.setBucket (vmCompressHash k) (s.buckets (vmCompressHash k) ++ [⟨k, data⟩])).entries k' =
      if k' = k then s.entries k ++ [⟨k, data⟩] else s.entries k' := by
  split
  next hk =>
    subst hk
    simp [Store.entries, Store.setBucket]
  next hk =>
    refine s.entries_setBucket k k' _ fun hhash => ?_
    have hne : ¬ k = k' := fun h => hk h.symm
    simp [Store.entries, hhash, hne]

end

/-! ## The invariant -/

structure Sys.Inv (S : Sys) : Prop where
  entries : ∀ k, S.store.entries k =
    (S.latest k).elim [] fun p => [⟨k, simpleCompress p.bytes pageSize⟩]
  clean : ∀ k p, S.latest k = some p → Clean p.bytes ∧ simpleCompress p.bytes pageSize ≠ []

section

variable {S S' : Sys} {k : Key}

theorem Page.ext_bytes {p q : Page} (h : p.bytes = q.bytes) : p = q := by
  cases p
  cases q
  cases h
  rfl

theorem Sys.Inv.decompress (h : S.Inv) (k : Key) (page : Page) : match S.latest k with
    | some p => vmPageDecompress S.store k page = some (.success,
        { S.store.unlink k with decompressedPages := S.store.decompressedPages + 1 }, p)
    | none => vmPageDecompress S.store k page = some (.failure, S.store, page) := by
  have hfind := S.store.find_eq k
  rw [h.entries k] at hfind
  cases hk : S.latest k with
  | none =>
    rw [hk] at hfind
    simp only [vmPageDecompress, hfind]
    rfl
  | some p =>
    rw [hk] at hfind
    obtain ⟨hclean, hne⟩ := h.clean k p hk
    have hround := hclean.roundtrip p.size page.size hne
    have hpage : decompressInto (simpleCompress p.bytes pageSize) page = p :=
      Page.ext_bytes (congrArg Prod.snd hround)
    simp only [vmPageDecompress, hfind, Option.elim_some, List.head?_cons, hround, hpage, if_true]
    rfl

theorem Sys.Inv.givesBack (h : S.Inv) : S.GivesBack := by
  intro k page
  have hd := h.decompress k page
  split at hd
  next p hk => exact ⟨_, hd, rfl, rfl⟩
  next hk => exact ⟨_, hd, rfl, rfl⟩

theorem Sys.Inv.forget (h : S.Inv) (k : Key) {s : Store}
    (hs : ∀ k', s.entries k' = (S.store.unlink k).entries k') :
    (S.forget k .success s).Inv where
  entries k' := by
    show s.entries k' = (update S.latest k none k').elim _ _
    rw [hs, S.store.entries_unlink, update_apply]
    split
    next hk =>
      subst hk
      rw [h.entries]
      cases S.latest k' <;> rfl
    · exact h.entries k'
  clean k' p hp := by
    have hp : update S.latest k none k' = some p := hp
    rw [update_apply] at hp
    split at hp
    · cases hp
    · exact h.clean k' p hp

theorem Sys.Inv.compress (h : S.Inv) {page : Page} {memory : Memory}
    (hok : storesClean S (.compress k page memory))
    (hstep : step S (.compress k page memory) = some S') : S'.Inv := by
  cases hstep
  unfold storesClean at hok
  unfold vmPageCompress at hok ⊢
  split
  · exact h
  split
  · exact h
  simp only
  split
  · exact h
  next hlen =>
    split
    · exact h
    rename_i hentry hbuffer hdata
    simp only [if_neg hentry, if_neg hbuffer, if_neg hlen, if_neg hdata, forall_const] at hok
    obtain ⟨hk, hclean⟩ := hok
    refine ⟨fun k' => ?_, fun k' p hp => ?_⟩
    · show (Store.setBucket _ _ _).entries k' = (update S.latest k (some page) k').elim _ _
      rw [S.store.entries_add, update_apply]
      split
      next heq =>
        rw [h.entries k, hk, heq]
        rfl
      · exact h.entries k'
    · have hp : update S.latest k (some page) k' = some p := hp
      rw [update_apply] at hp
      split at hp
      · cases hp
        refine ⟨hclean, fun hnil => hlen (.inl ?_)⟩
        rw [hnil]
        rfl
      · exact h.clean k' p hp

theorem Sys.Inv.step {a : Action} (h : S.Inv) (ha : storesClean S a) (hstep : step S a = some S') :
    S'.Inv := by
  cases a with
  | compress k page memory => exact h.compress ha hstep
  | decompress k page =>
    have hd := h.decompress k page
    simp only [Compress.step] at hstep
    split at hd
    · rw [hd] at hstep
      cases hstep
      exact h.forget k fun _ => rfl
    · rw [hd] at hstep
      cases hstep
      exact h
  | remove k =>
    cases hstep
    unfold vmPageCompressRemove
    split
    · exact h
    · exact h.forget k fun _ => rfl

theorem Sys.Inv.init (h : init S) : S.Inv where
  entries k := by
    rw [Store.entries, h.1, h.2]
    rfl
  clean k p hp := by
    rw [h.2] at hp
    cases hp

end

/-- **The store gives back what was stored last**, in every state of every run that stores
only clean pages and no key twice. -/
theorem givesBack_of_storesClean (S : Sys) (h : lts.Reach storesClean S) : S.GivesBack :=
  (h.inv (fun _ => .init) fun _ _ _ hinv ha hstep => hinv.step ha hstep : S.Inv).givesBack

def Page.fill (b : UInt8) : Page := ⟨List.replicate pageSize b, length_replicate⟩

theorem pageRuns_fill {b : UInt8} (hb : b = 0 ∨ b = 1) :
    pageRuns (Page.fill b).bytes = List.replicate 16 (b, 255) ++ [(b, 16)] := by
  rcases hb with rfl | rfl <;> decide +kernel

theorem clean_fill {b : UInt8} (hb : b = 0 ∨ b = 1) : Clean (Page.fill b).bytes where
  whole l r hlr _ := by
    have hcost : cost l + cost r = 51 := by
      have htotal : cost (pageRuns (Page.fill b).bytes) = 51 := by
        rw [pageRuns_fill hb]
        rcases hb with rfl | rfl <;> decide
      rw [hlr, cost, encode, flatMap_append, length_append] at htotal
      exact htotal
    unfold pageSize
    omega
  marks _ l n r hlr _ := by
    have hmem : (marker, n) ∈ pageRuns (Page.fill b).bytes := by
      rw [hlr]
      exact mem_append_right l mem_cons_self
    rw [pageRuns_fill hb] at hmem
    rcases hb with rfl | rfl <;> simp [marker] at hmem

def emptySys : Sys := ⟨⟨fun _ => [], 0, 0, 0⟩, fun _ => none⟩

theorem init_emptySys : init emptySys := ⟨fun _ => rfl, fun _ => rfl⟩

def Sys.stored (S : Sys) (k : Key) (page : Page) (memory : Memory) : Sys :=
  ⟨(vmPageCompress S.store k page memory).2, update S.latest k (some page)⟩

theorem reach_stored {ok : Sys → Action → Prop} {S : Sys} {k : Key} {page : Page} {memory : Memory}
    (hr : lts.Reach ok S) (h : (vmPageCompress S.store k page memory).1 = .success)
    (hok : ok S (.compress k page memory)) :
    lts.Reach ok (S.stored k page memory) ∧ (S.stored k page memory).latest k = some page := by
  have hstep : step S (.compress k page memory) = some (S.stored k page memory) := by
    rw [step]
    simp only [h, if_true]
    rfl
  exact ⟨.next hr hok hstep, update_self ..⟩

def markedPage : Page where
  bytes := marker :: 5 :: List.replicate 4094 0
  size := by
    rw [length_cons, length_cons, length_replicate]
    rfl

def threeCalls : List Action :=
  [.compress (1, 0) (.fill 0) ⟨true, true, true⟩, .compress (2, 0) markedPage ⟨true, false, true⟩,
    .remove (1, 0)]

def afterThree : Sys := (lts.run emptySys threeCalls).getD emptySys

theorem givesBack_storedAgain : ∃ S : Sys, S.latest (1, 0) = some (.fill 1) ∧ S.GivesBack := by
  have hok : lts.okRun storesClean emptySys threeCalls := by
    refine ⟨fun _ => ⟨rfl, clean_fill (.inl rfl)⟩, fun h => ?_, trivial, trivial⟩
    cases h
  have hreach : lts.Reach storesClean afterThree := .run _ (.start init_emptySys) hok rfl
  have hsuccess : (vmPageCompress afterThree.store (1, 0) (.fill 1) ⟨true, true, true⟩).1 = .success := by
    decide +kernel
  have hnone : afterThree.latest (1, 0) = none := by decide +kernel
  obtain ⟨hstored, hlatest⟩ := reach_stored hreach hsuccess fun _ => ⟨hnone, clean_fill (.inr rfl)⟩
  exact ⟨_, hlatest, givesBack_of_storesClean _ hstored⟩

/-- `vm_page_compress` stores the page, and `vm_page_decompress` panics on it. -/
theorem panic_of_marker : ∃ S, lts.Reach Lib.anyStep S ∧ S.latest (1, 0) = some markedPage ∧
    vmPageDecompress S.store (1, 0) (.fill 0) = none ∧ ¬ S.GivesBack := by
  have hsuccess : (vmPageCompress emptySys.store (1, 0) markedPage ⟨true, true, true⟩).1 = .success := by
    decide +kernel
  have hpanic : (vmPageDecompress (emptySys.stored (1, 0) markedPage ⟨true, true, true⟩).store
      (1, 0) (.fill 0)).isNone := by
    decide +kernel
  have hnone := Option.isNone_iff_eq_none.mp hpanic
  have hstart : lts.Reach Lib.anyStep emptySys := .start init_emptySys
  obtain ⟨hreach, hlatest⟩ := reach_stored hstart hsuccess trivial
  refine ⟨_, hreach, hlatest, hnone, fun h => ?_⟩
  obtain ⟨r, hr, -⟩ := h (1, 0) (.fill 0)
  rw [hnone] at hr
  cases hr

end Mach.Vm.Compress
