import Mach.Device.Cspf
import Mach.Lib.Fallible
import Mathlib.Logic.Function.Iterate

/-!
# Checked filters and their stack

`parse_net_filter` counts the stack as it would be after each word. Its count is never
above that of the run, so nothing is pushed below the stack, and it sees
every literal and every index of the header. But it is below that of the run once a
conditional operator has been passed, which takes one word more than it counts, and the
bound that it holds the count to is not that of the stack. So it does not see that a word
is taken from above the stack.

A filter has no jumps: where the stack is at each word can be read off its words (`place`).
A run of an accepted filter is safe if and only if, at the words that it comes to, this
place is in the stack (`parsed_safe_iff`).
-/

namespace Mach.Device.Cspf

open Lib

variable {f : List Word} {env : Env} {s s' : State} {w : Word} {a : Arg} {o : Option Op}

def Safe (f : List Word) (env : Env) (stack : Int → BitVec 32) : Prop :=
  ∃ b, netDoFilter f env stack (f.length + 1) = .stopped (.ret b)

/-! ## Where the stack is -/

def Arg.words : Arg → Nat
  | .pushlit => 1
  | _ => 0

def Arg.pops : Arg → Int
  | .nopush | .pushind | .pushhdrind => 1
  | _ => 0

def opShift : Option Op → Int
  | some .nop => -1
  | some (.cond _) => 1
  | _ => 0

def Arg.Inside (sp : Int) : Arg → Prop
  | .nopush | .pushind | .pushhdrind => sp ≤ stackDepth
  | .pushstk j => sp + j ≤ stackDepth
  | _ => True

def opInside (sp : Int) : Option Op → Prop
  | none => True
  | some .nop => sp - 1 ≤ stackDepth
  | some _ => sp ≤ stackDepth

def move (f : List Word) (p : Nat × Int) : Nat × Int :=
  match f[p.1]? with
  | none => p
  | some w => (p.1 + 1 + (netfArg w).words, p.2 + (netfArg w).pops + opShift (netfOp w))

/-- The index of the word that comes after `n` others, and the stack pointer there. -/
def place (f : List Word) (n : Nat) : Nat × Int := (move f)^[n] (1, stackDepth)

/-- What happens in the state `s`, at the place `p`, uses no word above the stack. An
operator is not looked at if the run already ends with the operand. -/
def Within (f : List Word) (env : Env) (s : State) (p : Nat × Int) : Prop :=
  match f[p.1]? with
  | none => p.2 ≤ stackDepth
  | some w => (netfArg w).Inside p.2 ∧
      ((operand f env { s with fp := s.fp + 1 } (netfArg w)).isOk →
        opInside (p.2 + (netfArg w).pops) (netfOp w))

/-! ## One word -/

def Fine {α : Type} (r : Except Stop α) : Prop := ∀ e, r ≠ .error (.fault e)

variable {α : Type} {i c c' : Int} {arg : BitVec 32} {fp fp' n : Nat}

theorem write_eq_ok {v : BitVec 32} (h : s.write i v = .ok s') : s'.fp = s.fp ∧ s'.sp = s.sp := by
  obtain ⟨-, ⟨⟩⟩ := of_ite_ok h
  exact ⟨rfl, rfl⟩

theorem read_of_inside (h : 0 ≤ i ∧ i ≤ stackDepth) : s.read i = .ok (s.stack i) := if_pos h

theorem inside_of_fine_read {g : BitVec 32 → Except Stop α} (h : Fine (s.read i >>= g)) :
    i ≤ stackDepth := by
  by_contra hi
  apply h (.stack i)
  rw [State.read, if_neg (by omega)]
  rfl

theorem fine_ok (x : α) : Fine (.ok x) := by
  intro e h
  cases h

theorem fine_ret (b : Bool) : Fine (.error (.ret b) : Except Stop α) := by
  intro e h
  cases h

theorem fine_dataWord {k : BitVec 32} {g : BitVec 32 → Except Stop α} (h : ∀ v, Fine (g v)) :
    Fine (env.dataWord k >>= g) := by
  unfold Env.dataWord
  split
  · exact fine_ret false
  · exact h _

theorem operand_ok {v : BitVec 32} (h : operand f env s a = .ok (v, s')) :
    s'.fp = s.fp + a.words ∧ s'.sp = s.sp + a.pops := by
  cases a with
  | nopush =>
    obtain ⟨x, -, hx⟩ := bind_eq_ok h
    cases hx
    exact ⟨rfl, rfl⟩
  | pushind =>
    obtain ⟨k, -, hk⟩ := bind_eq_ok h
    obtain ⟨x, -, hx⟩ := bind_eq_ok hk
    cases hx
    exact ⟨rfl, rfl⟩
  | pushhdrind =>
    obtain ⟨k, -, hk⟩ := bind_eq_ok h
    split at hk
    · cases hk
    · cases hk
      exact ⟨rfl, rfl⟩
  | pushstk | pushword =>
    obtain ⟨x, -, hx⟩ := bind_eq_ok h
    cases hx
    exact ⟨rfl, (Int.add_zero _).symm⟩
  | pushzero =>
    cases h
    exact ⟨rfl, (Int.add_zero _).symm⟩
  | pushlit | pushhdr =>
    simp only [operand] at h
    split at h
    · cases h
      exact ⟨rfl, (Int.add_zero _).symm⟩
    · cases h

theorem operate_ok (h : operate arg s o = .ok s') : s'.fp = s.fp ∧ s'.sp = s.sp + opShift o := by
  rcases o with _ | _ | b | c
  · cases h
    exact ⟨rfl, (Int.add_zero _).symm⟩
  · obtain ⟨t, ht, hx⟩ := bind_eq_ok h
    cases hx
    obtain ⟨hfp, hsp⟩ := write_eq_ok ht
    exact ⟨hfp, by rw [← hsp]; rfl⟩
  · obtain ⟨v, -, hx⟩ := bind_eq_ok h
    obtain ⟨hfp, hsp⟩ := write_eq_ok hx
    exact ⟨hfp, hsp.trans (Int.add_zero _).symm⟩
  · obtain ⟨v, -, hx⟩ := bind_eq_ok h
    split at hx
    · cases hx
    · cases hx
      exact ⟨rfl, rfl⟩

theorem inside_of_fine_operand (env : Env) (s : State) (h : Fine (operand f env s a)) :
    a.Inside s.sp := by
  cases a with
  | nopush | pushind | pushhdrind | pushstk => exact inside_of_fine_read h
  | _ => trivial

theorem inside_of_fine_operate (h : Fine (operate arg s o)) : opInside s.sp o := by
  rcases o with _ | _ | _ | _
  · trivial
  · unfold opInside
    by_contra hi
    apply h (.stack (s.sp - 1))
    simp only [operate]
    rw [State.write, if_neg (by omega)]
    rfl
  · exact inside_of_fine_read h
  · exact inside_of_fine_read h

theorem fine_operand (hparse : parseArg f fp c a = some (fp', c')) (hfp : s.fp = fp + 1)
    (hsp : 0 ≤ s.sp) (hin : a.Inside s.sp) : Fine (operand f env s a) := by
  cases a with
  | nopush =>
    simp only [operand]
    rw [read_of_inside ⟨hsp, hin⟩]
    exact fine_ok _
  | pushind =>
    simp only [operand]
    rw [read_of_inside ⟨hsp, hin⟩]
    exact fine_dataWord fun v => fine_ok _
  | pushhdrind =>
    simp only [operand]
    rw [read_of_inside ⟨hsp, hin⟩]
    simp only [bind, Except.bind]
    split
    · exact fine_ret false
    · exact fine_ok _
  | pushstk j =>
    simp only [operand]
    rw [read_of_inside ⟨by omega, hin⟩]
    exact fine_ok _
  | pushzero => exact fine_ok _
  | pushlit =>
    simp only [parseArg] at hparse
    split at hparse
    · cases hparse
    rename_i hlt
    simp only [operand, hfp]
    rw [List.getElem?_eq_getElem (Nat.not_le.mp hlt)]
    exact fine_ok _
  | pushhdr j =>
    simp only [parseArg] at hparse
    split at hparse
    · cases hparse
    rename_i hlt
    simp only [operand]
    rw [if_pos (Nat.not_le.mp hlt)]
    exact fine_ok _
  | pushword k => exact fine_dataWord fun v => fine_ok _

theorem fine_operate (hsp : 1 ≤ s.sp) (hin : opInside s.sp o) : Fine (operate arg s o) := by
  rcases o with _ | _ | b | c
  · exact fine_ok _
  · simp only [operate]
    rw [State.write, if_pos ⟨by omega, hin⟩]
    exact fine_ok _
  · simp only [operate]
    rw [read_of_inside ⟨by omega, hin⟩]
    show Fine (s.write _ _)
    rw [State.write, if_pos ⟨by omega, hin⟩]
    exact fine_ok _
  · simp only [operate]
    rw [read_of_inside ⟨by omega, hin⟩]
    simp only [bind, Except.bind]
    split
    · exact fine_ret _
    · exact fine_ok _

theorem step_ok (h : step f env s w = .ok s') : s'.fp = s.fp + 1 + (netfArg w).words ∧
      s'.sp = s.sp + (netfArg w).pops + opShift (netfOp w) := by
  obtain ⟨⟨arg, t⟩, hopnd, hop⟩ := bind_eq_ok h
  obtain ⟨hfp, hsp⟩ := operand_ok hopnd
  obtain ⟨hfp', hsp'⟩ := operate_ok hop
  exact ⟨hfp'.trans hfp, by rw [hsp', hsp]⟩

theorem within_of_fine_step (hw : f[s.fp]? = some w) (h : Fine (step f env s w)) :
    Within f env s (s.fp, s.sp) := by
  unfold Within
  simp only [hw]
  unfold step at h
  cases hopnd : operand f env { s with fp := s.fp + 1 } (netfArg w) with
  | error e =>
    rw [hopnd] at h
    refine ⟨inside_of_fine_operand (f := f) env { s with fp := s.fp + 1 } ?_, ?_⟩
    · rw [hopnd]
      intro e' he
      cases he
      exact h e' rfl
    · nofun
  | ok r =>
    rw [hopnd] at h
    obtain ⟨arg, t⟩ := r
    have hsp := (operand_ok hopnd).2
    refine ⟨inside_of_fine_operand (f := f) env { s with fp := s.fp + 1 } ?_, ?_⟩
    · rw [hopnd]
      exact fine_ok _
    · intro _
      rw [← hsp]
      exact inside_of_fine_operate h

/-! ## One word and the check -/

theorem parseArg_eq_some {d : Int} (h : parseArg f fp c a = some (fp', d)) :
    fp' = fp + a.words ∧ d = c + a.pops - 1 := by
  cases a with
  | nopush | pushind | pushhdrind =>
    cases h
    exact ⟨rfl, (Int.add_sub_cancel _ _).symm⟩
  | pushzero | pushword k =>
    cases h
    exact ⟨rfl, by simp [Arg.pops]⟩
  | pushlit | pushstk j | pushhdr j =>
    simp only [parseArg] at h
    split at h
    · cases h
    · cases h
      exact ⟨rfl, by simp [Arg.pops]⟩

theorem parseWord_eq_some (h : parseWord f fp c w = some (fp', c')) :
    (∃ p, parseArg f fp c (netfArg w) = some p) ∧ fp' = fp + 1 + (netfArg w).words ∧
      3 ≤ c + (netfArg w).pops ∧ 2 ≤ c' ∧ c' ≤ c + (netfArg w).pops + opShift (netfOp w) := by
  obtain ⟨⟨fp1, d⟩, harg, h⟩ := Option.bind_eq_some_iff.mp h
  obtain ⟨rfl, rfl⟩ := parseArg_eq_some harg
  refine ⟨⟨_, harg⟩, ?_⟩
  obtain ⟨hlow, h⟩ := Option.ite_none_left_eq_some.mp h
  split at h
  next hop =>
    cases h
    rw [hop]
    simp only [opShift]
    omega
  next op hne hop =>
    split at h
    · cases h
    cases h
    have hshift : 0 ≤ opShift (some op) := by
      rcases op with _ | b | c
      · exact absurd rfl hne
      · exact Int.le_refl 0
      · exact Int.zero_le_ofNat 1
    rw [hop]
    omega
  next => cases h

theorem fine_step (hw : f[s.fp]? = some w) (hparse : parseWord f s.fp c w = some (fp', c'))
    (hc : 2 ≤ c) (hle : c ≤ s.sp) (hin : Within f env s (s.fp, s.sp)) : Fine (step f env s w) := by
  obtain ⟨⟨p, harg⟩, -, hthree, -, -⟩ := parseWord_eq_some hparse
  unfold Within at hin
  simp only [hw] at hin
  obtain ⟨harg_in, hop_in⟩ := hin
  have hfine : Fine (operand f env { s with fp := s.fp + 1 } (netfArg w)) :=
    fine_operand harg rfl (by simp only; omega) harg_in
  unfold step
  cases hopnd : operand f env { s with fp := s.fp + 1 } (netfArg w) with
  | error e =>
    intro e' he
    apply hfine e'
    rw [hopnd]
    cases he
    rfl
  | ok r =>
    obtain ⟨arg, t⟩ := r
    have hsp := (operand_ok hopnd).2
    rw [hopnd] at hop_in
    have hop := hop_in rfl
    rw [← hsp] at hop
    exact fine_operate (by simp only at hsp; omega) hop

/-! ## Runs -/

theorem run_place (n : Nat) : ∀ s, run f env n s = .running s' →
    (s'.fp, s'.sp) = (move f)^[n] (s.fp, s.sp) := by
  induction n with
  | zero =>
    intro s h
    cases h
    rfl
  | succ n ih =>
    intro s h
    rw [run] at h
    split at h
    · cases h
    rename_i w hw
    split at h
    · cases h
    rename_i t ht
    obtain ⟨hfp, hsp⟩ := step_ok ht
    rw [ih t h, Function.iterate_succ_apply, hfp, hsp, move]
    simp only [hw]

theorem run_add (n k : Nat) : ∀ s, run f env (n + k) s = match run f env n s with
    | .running s' => run f env k s'
    | r => r := by
  induction n with
  | zero =>
    intro s
    rw [Nat.zero_add, run]
  | succ n ih =>
    intro s
    rw [Nat.succ_add, run, run]
    cases f[s.fp]? with
    | none => rfl
    | some w =>
      cases hs : step f env s w with
      | error e => simp only [hs]
      | ok t => simpa only [hs] using ih t

theorem run_stopped_add {e : Stop} (k : Nat) (s : State) (h : run f env n s = .stopped e) :
    run f env (n + k) s = .stopped e := by
  rw [run_add, h]

theorem run_stopped_unique {m : Nat} {e e' : Stop} (h : run f env n s = .stopped e)
    (h' : run f env m s = .stopped e') : e = e' := by
  have h1 := run_stopped_add m s h
  have h2 := run_stopped_add n s h'
  rw [Nat.add_comm m n, h1] at h2
  cases h2
  rfl

theorem within_of_run (h : ∀ e, run f env 1 s ≠ .stopped (.fault e)) :
    Within f env s (s.fp, s.sp) := by
  cases hw : f[s.fp]? with
  | none =>
    unfold Within
    simp only [hw]
    by_contra hout
    apply h (.stack s.sp)
    rw [run, hw]
    simp only [verdict]
    rw [State.read, if_neg (by omega)]
  | some w =>
    apply within_of_fine_step hw
    intro e he
    apply h e
    rw [run, hw]
    simp only [he]

theorem run_ok : ∀ (n : Nat) (s : State) (m : Nat) (c : Int), f.length < s.fp + n →
    f.length ≤ s.fp + m → parseLoop f m s.fp c = true → 2 ≤ c → c ≤ s.sp → 0 < n →
    (∀ k t, run f env k s = .running t → Within f env t (t.fp, t.sp)) →
    ∃ b, run f env n s = .stopped (.ret b) := by
  intro n
  induction n with
  | zero =>
    intro s m c _ _ _ _ _ hpos _
    omega
  | succ n ih =>
    intro s m c hn hm hparse hc hle _ hin
    have hhere := hin 0 s rfl
    rw [run]
    cases hw : f[s.fp]? with
    | none =>
      unfold Within at hhere
      simp only [hw] at hhere
      simp only [verdict]
      rw [read_of_inside ⟨by omega, hhere⟩]
      exact ⟨_, rfl⟩
    | some w =>
      have hlt : s.fp < f.length := (List.getElem?_eq_some_iff.mp hw).1
      cases m with
      | zero => omega
      | succ m =>
        rw [parseLoop, hw] at hparse
        simp only at hparse
        cases hword : parseWord f s.fp c w with
        | none => rw [hword] at hparse; cases hparse
        | some p =>
          obtain ⟨fp', c'⟩ := p
          rw [hword] at hparse
          have hfine := fine_step hw hword hc hle hhere
          obtain ⟨-, hfp, -, hc', hle'⟩ := parseWord_eq_some hword
          cases hs : step f env s w with
          | error e =>
            cases e with
            | ret b => exact ⟨b, by simp only [hs]⟩
            | fault e => exact absurd hs (hfine e)
          | ok t =>
            obtain ⟨hfp', hsp'⟩ := step_ok hs
            have hnext : t.fp = fp' := hfp'.trans hfp.symm
            simp only [hs]
            apply ih t m c' (by omega) (by omega) (by rw [hnext]; exact hparse) hc' (by omega)
              (by omega)
            intro k u hu
            apply hin (k + 1) u
            rw [run, hw]
            simp only [hs]
            exact hu

theorem safe_of_within (hparse : parseNetFilter f = true) (env : Env) (stack : Int → BitVec 32)
    (hin : ∀ n s, netDoFilter f env stack n = .running s → Within f env s (place f n)) :
    Safe f env stack := by
  apply run_ok (f.length + 1) (start stack) f.length stackDepth (by omega) (by omega) hparse
    (by decide) (Int.le_refl _) (Nat.succ_pos _)
  intro k t ht
  have hplace : place f k = (t.fp, t.sp) := (run_place k (start stack) ht).symm
  rw [← hplace]
  exact hin k t ht

/-- **A run of an accepted filter is safe if and only if it uses nothing above the stack**
at the places that it comes to. -/
theorem parsed_safe_iff (hparse : parseNetFilter f = true) (env : Env) (stack : Int → BitVec 32) :
    Safe f env stack ↔
      ∀ n s, netDoFilter f env stack n = .running s → Within f env s (place f n) := by
  constructor
  · rintro ⟨b, hsafe⟩ n s hrun
    have hplace : place f n = (s.fp, s.sp) := (run_place n (start stack) hrun).symm
    rw [hplace]
    apply within_of_run
    intro e he
    have hstop : netDoFilter f env stack (n + 1) = .stopped (.fault e) := by
      rw [netDoFilter] at hrun ⊢
      rw [run_add, hrun]
      exact he
    cases run_stopped_unique hsafe hstop
  · exact safe_of_within hparse env stack

def zeroPacket : Env := ⟨fun _ => 0, 60, fun _ => 0⟩

/-- The filter that accepts if the first word of the packet is zero: `PUSHWORD+0`, then
`PUSHZERO|EQ`. -/
def firstZero : List Word := [1, 0x0010, 0x0402]

theorem firstZero_safe : parseNetFilter firstZero = true ∧
    Safe firstZero zeroPacket fun _ => 0 := by
  have hparse : parseNetFilter firstZero = true := by decide
  refine ⟨hparse, (parsed_safe_iff hparse zeroPacket _).mpr ?_⟩
  intro n s hrun
  have hend : netDoFilter firstZero zeroPacket (fun _ => 0) 3 = .stopped (.ret true) := rfl
  rcases n with _ | _ | _ | n
  · exact ⟨trivial, fun _ => show (32 : Int) + 0 - 1 ≤ 32 by decide⟩
  · exact ⟨trivial, fun _ => show (31 : Int) + 0 ≤ 32 by decide⟩
  · exact show (31 : Int) ≤ 32 by decide
  · have hlong := run_stopped_add n _ hend
    cases hrun

/-- The filter `NOPUSH|AND`, which takes two words where there is one, is accepted. -/
theorem nopushAnd_parsed : parseNetFilter [1, 0x1800] = true ∧
    netDoFilter [1, 0x1800] zeroPacket (fun _ => 0) 3 = .stopped (.fault (.stack 33)) ∧
    ¬ Safe [1, 0x1800] zeroPacket fun _ => 0 := by
  have hrun : netDoFilter [1, 0x1800] zeroPacket (fun _ => 0) 3 =
      .stopped (.fault (.stack 33)) := rfl
  refine ⟨by decide, hrun, ?_⟩
  rintro ⟨b, hsafe⟩
  cases run_stopped_unique hrun hsafe

/-! ## Filters that stay within the stack -/

/-- A filter whose words all use the stack within its bounds. -/
def Level (f : List Word) : Prop :=
  ∀ n, match f[(place f n).1]? with
    | none => (place f n).2 ≤ stackDepth
    | some w => (netfArg w).Inside (place f n).2 ∧
        opInside ((place f n).2 + (netfArg w).pops) (netfOp w)

/-- **A filter that stays level is safe**: that its words use the stack within its bounds does
not depend on the packet. -/
theorem safe_of_level (hlevel : Level f) (hparse : parseNetFilter f = true) (env : Env)
    (stack : Int → BitVec 32) : Safe f env stack := by
  refine safe_of_within hparse env stack fun k t _ => ?_
  have hk := hlevel k
  unfold Within
  cases hw : f[(place f k).1]? with
  | none =>
    simp only [hw] at hk ⊢
    exact hk
  | some w =>
    simp only [hw] at hk ⊢
    exact ⟨hk.1, fun _ => hk.2⟩

theorem firstZero_level : parseNetFilter firstZero = true ∧ Safe firstZero zeroPacket fun _ => 0 := by
  have hlevel : Level firstZero := by
    intro n
    rcases n with _ | _ | n
    · exact ⟨trivial, show (32 : Int) + 0 - 1 ≤ 32 by decide⟩
    · exact ⟨trivial, show (31 : Int) + 0 ≤ 32 by decide⟩
    · have hplace : place firstZero (n + 2) = (3, 31) :=
        (Function.iterate_add_apply _ n 2 _).trans (Function.iterate_fixed rfl n)
      rw [hplace]
      exact show (31 : Int) ≤ 32 by decide
  exact ⟨by decide, safe_of_level hlevel (by decide) _ _⟩

end Mach.Device.Cspf
