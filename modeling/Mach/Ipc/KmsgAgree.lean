import Mathlib.Data.List.Forall2
import Mach.Ipc.KmsgWalk

/-!
# Copyin, copyout and the cleaning loop on one body

`Parsed` reads a kernel body as a list of items. Copyin leaves such a body behind,
whose descriptors are those of the user's body up to the changes copyin makes to
them. The two other loops are then followed over it by induction on that list.
-/

namespace Mach.Ipc.Kmsg

open Lib.WordMem List

variable {abi : Abi}

/-- From `a` on, the body consists of the items `xs` with the descriptors `ts`. -/
inductive Parsed (abi : Abi) (eaddr : Nat) (b : Body) : Nat → List MsgType → List Handled → Prop
  | nil {a : Nat} : eaddr ≤ a → Parsed abi eaddr b a [] []
  | cons {a : Nat} {t : MsgType} {x : Handled} {ts : List MsgType} {xs : List Handled} :
    a < eaddr → Settled abi eaddr b t a x → Parsed abi eaddr b (itemEnd abi t a) ts xs →
    Parsed abi eaddr b a (t :: ts) (x :: xs)

variable {eaddr a : Nat} {b : Body} {ts : List MsgType} {xs : List Handled} {m : Mem} {w : World}
  {t : MsgType}

theorem Parsed.congr {b' : Body} (h : Parsed abi eaddr b a ts xs)
    (hm : ∀ c, a ≤ c → b'.mem c = b.mem c) (hh : ∀ r, r < b.fresh → b'.heap r = b.heap r)
    (hf : b.fresh ≤ b'.fresh) :
    Parsed abi eaddr b' a ts xs := by
  induction h with
  | nil ha => exact .nil ha
  | @cons a t x ts xs ha hx _ ih =>
    have hlt := lt_itemEnd abi t a
    exact .cons ha (hx.congr (fun c h1 _ => (hm c h1).symm) hh hf) (ih fun c hc => hm c (by omega))

/-! ## The body copyin leaves behind -/

/-- The descriptors of a body, from `a` on. -/
def descriptors (abi : Abi) (m : Mem) (eaddr : Nat) : Nat → Nat → List MsgType
  | 0, _ => []
  | fuel + 1, a =>
    if a < eaddr then
      let t := readType abi m a
      t :: descriptors abi m eaddr fuel (itemEnd abi t a)
    else []

theorem descriptors_congr {m' : Mem} : ∀ {fuel a : Nat},
    (∀ c, a ≤ c → m' c = m c) → descriptors abi m' eaddr fuel a = descriptors abi m eaddr fuel a
  | 0, _, _ => rfl
  | fuel + 1, a, h => by
    have ht : readType abi m' a = readType abi m a := readType_congr fun c h1 _ => (h c h1).symm
    have hlt := lt_itemEnd abi (readType abi m a) a
    rw [descriptors, descriptors, ht]
    simp only
    rw [descriptors_congr fun c hc => h c (by omega)]

def FromUser (abi : Abi) (t t₀ : MsgType) : Prop :=
  t.number = t₀.number ∧ t.size = kernelSize abi t₀

theorem copyin_parsed : ∀ {fuel a : Nat} {b b' : Body}
    {xs : List Handled}, walk .stuck (copyinItem abi w eaddr) eaddr fuel b a = .ok (b', xs) →
    ∃ ts, Parsed abi eaddr b' a ts xs ∧
      List.Forall₂ (FromUser abi) ts (descriptors abi b.mem eaddr fuel a) ∧
      (∀ c, c < a → b'.mem c = b.mem c) ∧ (∀ r, r < b.fresh → b'.heap r = b.heap r) ∧
      b.fresh ≤ b'.fresh
  | fuel, a, b, b', xs, h => by
    rcases walk_cases h with ⟨ha, rfl, rfl⟩ | ⟨k, b1, x, a1, ys, rfl, ha, hitem, hrest, rfl⟩
    · have hd : descriptors abi b'.mem eaddr fuel a = [] := by
        cases fuel with
        | zero => rfl
        | succ k => exact if_neg (by omega)
      refine ⟨[], .nil ha, ?_, fun _ _ => rfl, fun _ _ => rfl, (Nat.le_refl _)⟩
      rw [hd]
      exact .nil
    · obtain ⟨t, ht⟩ := copyinItem_copied hitem
      obtain ⟨ts, hp, hd, hm, hh, hf⟩ := copyin_parsed hrest
      have hlt : a < a1 := ht.stop ▸ lt_itemEnd abi t a
      have hnext : descriptors abi b1.mem eaddr k a1 = descriptors abi b.mem eaddr k a1 :=
        descriptors_congr fun c hc => ht.mem c (.inr hc)
      have hx : Settled abi eaddr b' t a x :=
        ht.settled.congr (fun c _ hc => (hm c (by rw [ht.stop]; exact hc)).symm) hh hf
      refine ⟨t :: ts, .cons ha hx (ht.stop ▸ hp), ?_, fun c hc => ?_, fun r hr => ?_, ?_⟩
      · rw [descriptors, if_pos ha]
        refine .cons ⟨ht.number, ht.size⟩ ?_
        rw [← ht.stop₀, ← hnext]
        exact hd
      · rw [hm c (by omega), ht.mem c (.inl hc)]
      · have := ht.fresh
        rw [hh r (by omega), ht.heap r hr]
      · have := ht.fresh
        omega

theorem copyin_regions : ∀ {fuel a : Nat} {b b' : Body}
    {xs : List Handled}, walk .stuck (copyinItem abi w eaddr) eaddr fuel b a = .ok (b', xs) →
    (∀ r ∈ xs.flatMap (·.regions), b.fresh ≤ r.data) ∧ (xs.flatMap (·.regions)).Nodup
  | fuel, a, b, b', xs, h => by
    rcases walk_cases h with ⟨_, rfl, rfl⟩ | ⟨k, b1, x, a1, ys, rfl, ha, hitem, hrest, rfl⟩
    · exact ⟨by simp, by simp⟩
    · obtain ⟨t, ht⟩ := copyinItem_copied hitem
      obtain ⟨hnew, hnodup⟩ := copyin_regions hrest
      have hf := ht.fresh
      refine ⟨fun r hr => ?_, nodup_append.mpr ⟨ht.single, hnodup, fun r hr r' hr' => ?_⟩⟩
      · rcases mem_append.mp hr with hr | hr
        · exact (ht.regions r hr).1
        · have := hnew r hr
          omega
      · intro he
        have h1 := (ht.regions r hr).2
        have h2 := hnew r' hr'
        rw [← he] at h2
        omega

/-- The loop always finishes: the bound on its turns is never met. -/
theorem ipcKmsgCopyinBody_ne_stuck (abi : Abi) (w : World) (eaddr : Nat) (b : Body) :
    ipcKmsgCopyinBody abi w eaddr b ≠ .error .stuck := by
  refine walk_ne_stuck (fun h => ?_) (fun b a h => ?_) (by omega)
  · obtain ⟨t, ht⟩ := copyinItem_copied h
    exact ht.stop ▸ lt_itemEnd abi t _
  · unfold copyinItem copyinInline copyinOol at h
    simp only at h
    repeat' split at h
    all_goals cases h

/-! ## The cleaning loop -/

/-- The 32-bit product of the cleaning loop gives the length copyin computed: on
64 bits it does not wrap, on 32 bits only multiples of the address space are lost,
and those are lost by copyin too. -/
def fitsNarrow (abi : Abi) (t : MsgType) : Prop :=
  match abi with
  | .lp64 => t.number * kernelSize abi t + 7 < 2 ^ 32
  | .i386 => (t.number * kernelSize abi t + 7) / 2 ^ 32 % 8 = 0

instance : ∀ (abi : Abi) (t : MsgType), Decidable (fitsNarrow abi t)
  | .lp64, _ => Nat.decLt ..
  | .i386, _ => Nat.decEq ..

theorem kernelSize_lt (h : t.size < 2 ^ 16) : kernelSize abi t < 2 ^ 16 := by
  cases abi with
  | lp64 =>
    unfold kernelSize
    simp only
    split <;> omega
  | i386 => exact h

theorem length_eq_iff_fitsNarrow {t0 : MsgType} (h : FromUser abi t t0) (hn : t0.number < 2 ^ 32)
    (hs : t0.size < 2 ^ 16) :
    lengthNarrow t.number t.size = lengthWide abi t.number t.size ↔ fitsNarrow abi t0 := by
  have hk : kernelSize abi t0 < 2 ^ 16 := kernelSize_lt hs
  obtain ⟨hnum, hsize⟩ := h
  rw [hnum, hsize]
  unfold fitsNarrow
  generalize t0.number = number, kernelSize abi t0 = size at hn hk
  have hp : number * size < 2 ^ 48 := by
    calc number * size ≤ 2 ^ 32 * size := Nat.mul_le_mul_right _ (Nat.le_of_lt hn)
      _ < 2 ^ 32 * 2 ^ 16 := Nat.mul_lt_mul_of_pos_left hk (by decide)
      _ = 2 ^ 48 := by decide
  unfold lengthNarrow lengthWide
  generalize number * size = p at hp ⊢
  cases abi <;> simp only [Abi.vmBits] <;> omega

theorem cleanItem_settled {x : Handled} (h : Settled abi eaddr b t a x)
    (hfit : lengthNarrow t.number t.size = lengthWide abi t.number t.size) :
    cleanItem abi eaddr b a = .ok (b, x, itemEnd abi t a) := by
  unfold cleanItem
  rw [h.type, h.shape]
  simp only [hfit]
  by_cases hin : t.isInline
  · rw [itemEnd]
    by_cases hp : portAny t.name
    · rw [trimNumber_eq (h.inside hin hp)]
      simp [describe, portsAt, hin]
    · simp [describe, hin, hp]
  · rw [if_neg hin, itemEnd, if_neg hin, describe_ool hin]

theorem cleanItem_length (eaddr : Nat) (h : readType abi b.mem a = t) :
    ∃ y a1, cleanItem abi eaddr b a = .ok (b, y, a1) ∧
      y.item.length = lengthNarrow t.number t.size := by
  unfold cleanItem
  rw [h]
  simp only
  split <;> exact ⟨_, _, rfl, rfl⟩

theorem clean_parsed (h : Parsed abi eaddr b a ts xs) : ∀ {fuel : Nat}, eaddr - a ≤ fuel →
    (walk .stuck (cleanItem abi eaddr) eaddr fuel b a = .ok (b, xs) ↔
      ∀ t ∈ ts, lengthNarrow t.number t.size = lengthWide abi t.number t.size) := by
  induction h with
  | nil ha => exact fun _ => by simp [walk_done ha]
  | @cons a t x ts xs ha hx _ ih =>
    intro fuel hf
    have hlt := lt_itemEnd abi t a
    obtain ⟨k, rfl⟩ : ∃ k, fuel = k + 1 := ⟨fuel - 1, by omega⟩
    rw [forall_mem_cons]
    constructor
    · intro h
      obtain ⟨hge, -, -⟩ | ⟨k', b1, y, a1, ys, hk, -, hitem, hrest, hxs⟩ := walk_cases h
      · omega
      · obtain ⟨rfl, rfl⟩ := List.cons.inj hxs
        obtain rfl : k = k' := by omega
        obtain ⟨y, a2, hy, hlen⟩ := cleanItem_length eaddr hx.type
        rw [hy] at hitem
        cases hitem
        have hfit : lengthNarrow t.number t.size = lengthWide abi t.number t.size := by
          rw [← hlen, hx.shape]
          rfl
        rw [cleanItem_settled hx hfit] at hy
        cases hy
        exact ⟨hfit, (ih (by omega)).mp hrest⟩
    · rintro ⟨hfit, hrest⟩
      rw [walk_turn ha (cleanItem_settled hx hfit), (ih (by omega)).mpr hrest]

/-! ## The copyout loop -/

theorem copyoutOol_outside {c : Nat} (hc : afterType abi t a ≤ c) :
    (copyoutOol abi w m a t).1 c = m c := by
  have hsize : ∀ n, setSize abi m a t.longform n c = m c := fun n => (setType_outside (.inr hc)).2
  unfold copyoutOol
  simp only
  split
  · split
    · exact hsize 32
    · rfl
  · split
    · exact hsize 0
    · split
      · exact hsize 32
      · rfl

theorem copyoutItem_settled {x : Handled} (h : Settled abi eaddr b t a x) :
    ∃ m, copyoutItem abi w b a = .ok ({ b with mem := m }, x.item, itemEnd abi t a) ∧
      ∀ c, itemEnd abi t a ≤ c → m c = b.mem c := by
  have hlt := lt_afterType abi t a
  have hle := afterType_le_itemEnd abi t a
  unfold copyoutItem
  rw [h.type, h.shape]
  by_cases hin : t.isInline
  · have hdata := data_le_itemEnd abi hin a
    simp only [describe, hin, itemEnd, if_true]
    refine ⟨_, rfl, fun c hc => ?_⟩
    rw [setDeallocate_outside (by rw [itemEnd, if_pos hin] at hle; omega)]
    split
    next hp =>
      have harr := h.array hin hp
      rw [itemEnd, if_pos hin] at hdata
      exact writeArray_above (word_pos abi) _ (by rw [length_readArray]; omega)
    next => rfl
  · have hptr := pointer_lt_itemEnd abi hin a
    simp only [describe, hin, itemEnd, Bool.false_eq_true, if_false]
    refine ⟨_, rfl, fun c hc => ?_⟩
    rw [itemEnd, if_neg hin] at hptr
    rw [Function.update_of_ne (by omega), setDeallocate_outside (by omega),
      copyoutOol_outside (by omega)]

theorem copyout_parsed (h : Parsed abi eaddr b a ts xs) {fuel : Nat} (hf : eaddr - a ≤ fuel) :
    ∃ b1, walk .stuck (copyoutItem abi w) eaddr fuel b a = .ok (b1, xs.map (·.item)) := by
  -- the body changes behind the walk, so the induction is over all bodies with these items
  induction xs generalizing a b ts fuel with
  | nil =>
    cases h with
    | nil ha => exact ⟨b, walk_done ha⟩
  | cons x xs ih =>
    cases h with
    | @cons _ t _ ts _ ha hx hrest =>
      have hlt := lt_itemEnd abi t a
      obtain ⟨k, rfl⟩ : ∃ k, fuel = k + 1 := ⟨fuel - 1, by omega⟩
      obtain ⟨m, hitem, hm⟩ := copyoutItem_settled hx
      have hnext : Parsed abi eaddr { b with mem := m } (itemEnd abi t a) ts xs :=
        hrest.congr hm (fun _ _ => rfl) (Nat.le_refl _)
      have hk : eaddr - itemEnd abi t a ≤ k := by omega
      obtain ⟨b1, hb1⟩ := ih hnext hk
      exact ⟨b1, by rw [walk_turn ha hitem, hb1]; rfl⟩

/-! ## The three loops -/

/-- The walkers agree on the body `b` that copyin left, having gone through the
items `xs`: destroying the message goes through the same items and releases what
was acquired for each; copyout, whatever the receiver's memory and names, goes
through the same items; and no region was acquired twice. -/
structure WalkersAgree (abi : Abi) (eaddr : Nat) (b : Body) (xs : List Handled) : Prop where
  clean : ipcKmsgCleanBody abi eaddr b = .ok (b, xs)
  copyout : ∀ w, ∃ b₁, ipcKmsgCopyoutBody abi w eaddr b = .ok (b₁, xs.map (·.item))
  once : (xs.flatMap (·.regions)).Nodup

theorem forall_mem_fits {ts0 : List MsgType} (h : List.Forall₂ (FromUser abi) ts ts0)
    (hb : ∀ t ∈ ts0, t.number < 2 ^ 32 ∧ t.size < 2 ^ 16) :
    (∀ t ∈ ts, lengthNarrow t.number t.size = lengthWide abi t.number t.size) ↔
      ∀ t ∈ ts0, fitsNarrow abi t := by
  induction h with
  | nil => simp
  | @cons t t0 ts ts0 ht _ ih =>
    rw [forall_mem_cons] at hb
    rw [forall_mem_cons, forall_mem_cons, ih hb.2, length_eq_iff_fitsNarrow ht hb.1.1 hb.1.2]

theorem descriptors_bounds : ∀ {fuel a : Nat},
    ∀ t ∈ descriptors abi m eaddr fuel a, t.number < 2 ^ 32 ∧ t.size < 2 ^ 16
  | 0, _, t, h => by simp [descriptors] at h
  | fuel + 1, a, t, h => by
    rw [descriptors] at h
    split at h
    · rcases mem_cons.mp h with rfl | h
      · exact ⟨readType_number_lt .., readType_size_lt ..⟩
      · exact descriptors_bounds t h
    · cases h

/-- **The walkers agree exactly when no length wraps in 32 bits.** On every body
that copyin accepts. -/
theorem walkersAgree_iff_fitsNarrow {w : World} {eaddr : Nat} {b b' : Body} {xs : List Handled}
    (h : ipcKmsgCopyinBody abi w eaddr b = .ok (b', xs)) :
    WalkersAgree abi eaddr b' xs ↔ ∀ t ∈ descriptors abi b.mem eaddr eaddr 0, fitsNarrow abi t := by
  obtain ⟨ts, hp, hts, -, -, -⟩ := copyin_parsed h
  have hclean : ipcKmsgCleanBody abi eaddr b' = .ok (b', xs) ↔ _ :=
    (clean_parsed hp (by omega)).trans (forall_mem_fits hts descriptors_bounds)
  exact ⟨fun hw => hclean.mp hw.clean, fun hfit =>
    ⟨hclean.mpr hfit, fun w' => copyout_parsed hp (by omega), (copyin_regions h).2⟩⟩

/-! ## Two bodies -/

def willing : World where
  right _ _ name _ := some name
  memory _ := true
  userName _ i := i + 1
  allocate _ := some 4096
  outName _ i := i + 1

/-- One item on 64 bits: `number` elements of `size` bits, out of line. -/
def oneOol (name size number : Nat) : Body where
  mem := Function.update (fun _ => 0) 0 (name + size * 2 ^ 8 + number * 2 ^ 32)
  heap _ _ := 0
  fresh := 1

/-- An array of three send rights. -/
theorem walkersAgree_threePorts : ∃ b' xs,
    ipcKmsgCopyinBody .lp64 willing 16 (oneOol 19 32 3) = .ok (b', xs) ∧
      xs.map (·.regions) = [[.kalloc 1 24]] ∧ WalkersAgree .lp64 16 b' xs :=
  ⟨_, _, rfl, rfl,
    (walkersAgree_iff_fitsNarrow (w := willing) (b := oneOol 19 32 3) rfl).mpr (by decide)⟩

/-- Half a gigabyte of out-of-line data: the 32-bit length is zero, so that the
memory is never released. -/
theorem halfGigabyte_leaked : ∃ b' x y,
    ipcKmsgCopyinBody .lp64 willing 16 (oneOol 9 8 (2 ^ 29)) = .ok (b', [x]) ∧
      ipcKmsgCleanBody .lp64 16 b' = .ok (b', [y]) ∧
      x.item.length = 2 ^ 29 ∧ y.item.length = 0 ∧ x.regions = [.copy 1] ∧ y.regions = [] ∧
      ¬ WalkersAgree .lp64 16 b' [x] := by
  refine ⟨_, _, _, rfl, rfl, rfl, rfl, rfl, rfl, fun h => ?_⟩
  have hclean := h.clean
  injection hclean with hpair
  injection hpair with _ hxs
  injection hxs with hx
  exact absurd (congrArg (·.item.length) hx) (by decide)

end Mach.Ipc.Kmsg
