import Mach.Lib.Transition

/-!
# The shadow stack of return sites

`kern/cfi_integrity.c`: a protected call records its return site, and a protected return is
held against the last site recorded. The table has room for 64 sites, and a call nested deeper
goes through without being recorded. A return that finds the table empty has no expected
address, and a return that is refused takes its site off the table all the same. The security
log is left out.
-/

namespace Mach.Kern.CfiIntegrity

open Mach.Lib

def maxCallDepth : Nat := 64
def validCodeStart : Nat := 0x100000
def validCodeEnd : Nat := 0x800000

inductive CfiResult
  | valid
  | invalidReturnAddr
  | invalidCallTarget
  deriving DecidableEq

/-- `cfi_call_stack`, the last address first, and `function_table`. -/
structure Cfi where
  addresses : List Nat
  functions : List Nat

def cfiInit : Cfi := ⟨[], []⟩

def cfiValidateReturn (addr expected : Nat) : CfiResult :=
  if addr < validCodeStart ∨ addr > validCodeEnd then .invalidReturnAddr
  else if expected ≠ 0 ∧ addr ≠ expected then .invalidReturnAddr
  else if addr % 4 ≠ 0 then .invalidReturnAddr
  else .valid

def cfiValidateCallTarget (c : Cfi) (target : Nat) : CfiResult :=
  if target < validCodeStart ∨ target > validCodeEnd then .invalidCallTarget
  else if target % 4 ≠ 0 then .invalidCallTarget
  else if c.functions ≠ [] ∧ target ∉ c.functions then .invalidCallTarget
  else .valid

def cfiPushCall (c : Cfi) (site : Nat) : Cfi :=
  if c.addresses.length < maxCallDepth then { c with addresses := site :: c.addresses } else c

def cfiPopCall (c : Cfi) : Nat × Cfi :=
  match c.addresses with
  | a :: rest => (a, { c with addresses := rest })
  | [] => (0, c)

def cfiProtectedCall (c : Cfi) (target site : Nat) : CfiResult × Cfi :=
  match cfiValidateCallTarget c target with
  | .valid => (.valid, cfiPushCall c site)
  | r => (r, c)

def cfiProtectedReturn (c : Cfi) (addr : Nat) : CfiResult × Cfi :=
  (cfiValidateReturn addr (cfiPopCall c).1, (cfiPopCall c).2)

def Code (a : Nat) : Prop := validCodeStart ≤ a ∧ a ≤ validCodeEnd ∧ a % 4 = 0

instance (a : Nat) : Decidable (Code a) := inferInstanceAs (Decidable (_ ∧ _ ∧ _))

structure State where
  cfi : Cfi
  calls : List Nat

inductive Action
  | call (target site : Nat)
  | ret (addr : Nat)

def step (s : State) : Action → Option State
  | .call target site =>
    if Code site then
      let r := cfiProtectedCall s.cfi target site
      some ⟨r.2, if r.1 = .valid then site :: s.calls else s.calls⟩
    else none
  | .ret addr =>
    let r := cfiProtectedReturn s.cfi addr
    some ⟨r.2, if r.1 = .valid then s.calls.tail else s.calls⟩

def system : Lts State Action where
  init := fun s => s = ⟨cfiInit, []⟩
  step := step

variable {s s' : State} {addr : Nat}

/-- A call has room in the table. A return goes where the last open call came from or, with no
call open, to no code. -/
def Fits (s : State) : Action → Prop
  | .call _ _ => s.calls.length < maxCallDepth
  | .ret addr => s.calls.head? = some addr ∨ s.calls = [] ∧ ¬ Code addr

structure Inv (s : State) : Prop where
  table : s.cfi = ⟨s.calls, []⟩
  code : ∀ a ∈ s.calls, Code a

theorem cfiValidateReturn_eq_valid {expected : Nat} :
    cfiValidateReturn addr expected = .valid ↔ Code addr ∧ (expected = 0 ∨ addr = expected) := by
  unfold cfiValidateReturn Code
  grind

theorem cfiProtectedReturn_eq_valid (h : Inv s) : (cfiProtectedReturn s.cfi addr).1 = .valid ↔
      s.calls.head? = some addr ∨ s.calls = [] ∧ Code addr := by
  show cfiValidateReturn addr (cfiPopCall s.cfi).1 = _ ↔ _
  rw [cfiValidateReturn_eq_valid, h.table]
  obtain ⟨c, calls⟩ := s
  cases calls with
  | nil => simp [cfiPopCall]
  | cons a rest =>
    have hcode : Code a := h.code a List.mem_cons_self
    have hne : a ≠ 0 := Nat.ne_of_gt (Nat.lt_of_lt_of_le (by decide) hcode.1)
    simp only [cfiPopCall, List.head?_cons, Option.some.injEq]
    grind

theorem Inv.call (h : Inv s) {site : Nat} (hsite : Code site) (hroom : s.calls.length < maxCallDepth) :
    Inv ⟨cfiPushCall s.cfi site, site :: s.calls⟩ := by
  refine ⟨?_, List.forall_mem_cons.mpr ⟨hsite, h.code⟩⟩
  rw [h.table]
  exact if_pos hroom

theorem Inv.step {act : Action} (h : Inv s) (hfits : Fits s act) (hs : step s act = some s') :
    Inv s' := by
  cases act with
  | call target site =>
    obtain ⟨hsite, ⟨⟩⟩ := Option.ite_none_right_eq_some.mp hs
    unfold cfiProtectedCall
    split
    · exact h.call hsite hfits
    next hr => exact ⟨h.table.trans (by rw [if_neg hr]), by rw [if_neg hr]; exact h.code⟩
  | ret addr =>
    cases hs
    have hcfi : (cfiProtectedReturn s.cfi addr).2 = ⟨s.calls.tail, []⟩ := by
      show (cfiPopCall s.cfi).2 = _
      rw [h.table]
      cases s.calls <;> rfl
    have hcalls : (if (cfiProtectedReturn s.cfi addr).1 = .valid then s.calls.tail else s.calls) =
        s.calls.tail := by
      refine ite_eq_left_iff.mpr fun hr => ?_
      obtain hhead | ⟨hnil, -⟩ := hfits
      · exact absurd ((cfiProtectedReturn_eq_valid h).mpr (.inl hhead)) hr
      · rw [hnil, List.tail_nil]
    rw [hcalls, hcfi]
    exact ⟨rfl, fun a ha => h.code a (List.mem_of_mem_tail ha)⟩

/-- **The shadow stack is exact** as long as the calls fit in the table and the returns match: it
judges a return rightly unless no call is open and the return goes to code, and one more call can
return unless the table is full. -/
theorem shadowStack_exact_iff (h : system.Reach Fits s) (addr : Nat) :
    (((cfiProtectedReturn s.cfi addr).1 = .valid ↔ s.calls.head? = some addr) ↔
      s.calls ≠ [] ∨ ¬ Code addr) ∧
    (Code addr → ((cfiProtectedReturn (cfiPushCall s.cfi addr) addr).1 = .valid ↔
      s.calls.length < maxCallDepth ∨ s.calls.head? = some addr)) := by
  have hinv : Inv s := by
    refine Lts.Reach.inv ?_ (fun s a s' hi hfits hs => hi.step hfits hs) h
    rintro s rfl
    exact ⟨rfl, nofun⟩
  have hvalid : (cfiProtectedReturn s.cfi addr).1 = .valid ↔ _ := cfiProtectedReturn_eq_valid hinv
  refine ⟨?_, fun haddr => ?_⟩
  · rw [hvalid]
    cases s.calls <;> simp
  by_cases hroom : s.calls.length < maxCallDepth
  · exact iff_of_true ((cfiProtectedReturn_eq_valid (hinv.call haddr hroom)).mpr (.inl rfl)) (.inl hroom)
  · have hopen : s.calls ≠ [] := fun hnil => hroom (by rw [hnil]; decide)
    have hfull : ¬ s.cfi.addresses.length < maxCallDepth := by rwa [hinv.table]
    rw [cfiPushCall, if_neg hfull, hvalid, or_iff_left fun h => hopen h.1, or_iff_right hroom]

def nestedCalls (n : Nat) : List Action := (List.range n).map fun i => .call 0x100000 (0x100000 + 4 * i)

/-- Of three nested calls the last has returned; the return of the second is valid. -/
theorem shadowStack_exact_nested : ∃ s, system.run ⟨cfiInit, []⟩ (nestedCalls 3 ++ [.ret 0x100008]) = some s ∧
    ((cfiProtectedReturn s.cfi 0x100004).1 = .valid ↔ s.calls.head? = some 0x100004) ∧
    s.calls = [0x100004, 0x100000] := by
  obtain ⟨s, hrun, hcalls⟩ := Option.map_eq_some_iff.mp (show (system.run ⟨cfiInit, []⟩
    (nestedCalls 3 ++ [.ret 0x100008])).map State.calls = some [0x100004, 0x100000] by decide)
  have hfits : system.okRun Fits ⟨cfiInit, []⟩ (nestedCalls 3 ++ [.ret 0x100008]) :=
    ⟨(by decide : 0 < 64), (by decide : 1 < 64), (by decide : 2 < 64), .inl rfl, trivial⟩
  have hreach : system.Reach Fits s := .run _ (.start rfl) hfits hrun
  refine ⟨s, hrun, (shadowStack_exact_iff hreach 0x100004).1.mpr (.inl ?_), hcalls⟩
  rw [hcalls]
  exact List.cons_ne_nil _ _

set_option maxRecDepth 4000 in
/-- A return without a call passes. Of 65 nested calls the last cannot return. After a refused
return, the last call is taken to return to the site of the one before. -/
theorem shadowStack_inexact : (cfiProtectedReturn cfiInit 0x100000).1 = .valid ∧
    (system.run ⟨cfiInit, []⟩ (nestedCalls 65)).map
        (fun s => (s.calls.head?, (cfiProtectedReturn s.cfi 0x100100).1)) =
      some (some 0x100100, .invalidReturnAddr) ∧
    (system.run ⟨cfiInit, []⟩ (nestedCalls 2 ++ [.ret 0])).map
        (fun s => (s.calls.head?, (cfiProtectedReturn s.cfi 0x100000).1)) =
      some (some 0x100004, .valid) := by
  decide

end Mach.Kern.CfiIntegrity
