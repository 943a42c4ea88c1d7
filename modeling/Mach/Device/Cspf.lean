import Mathlib.Algebra.GroupWithZero.Nat
import Mathlib.Logic.Function.Basic

/-!
# Stack filters of packets

A filter is a list of words; the first holds flags. Each other word names an operand, which
may be the word that follows, and an operator. `parse_net_filter` goes over a filter once
when it is set; `net_do_filter` runs it on a packet. Both use the same two switches, here
`netfArg` and `netfOp`.
-/

namespace Mach.Device.Cspf

/-- `filter_t`. -/
abbrev Word := BitVec 16

/-- `NET_FILTER_STACK_DEPTH`. -/
def stackDepth : Int := 32

/-- `NET_MAX_FILTER`. -/
def netMaxFilter : Int := 128

/-- `NET_HDW_HDR_MAX`, in words. -/
def headerWords : Nat := 32

/-! ## Words -/

/-- The cases on `NETF_ARG`. -/
inductive Arg
  | nopush
  | pushlit
  | pushzero
  | pushind
  | pushhdrind
  | pushword (k : BitVec 32)
  | pushhdr (j : Nat)
  | pushstk (j : Nat)

/-- `NETF_ARG`, and the switch on it. -/
def netfArg (w : Word) : Arg :=
  let arg := (w &&& 0x3ff).toNat
  if arg = 0 then .nopush
  else if arg = 1 then .pushlit
  else if arg = 2 then .pushzero
  else if arg = 14 then .pushind
  else if arg = 15 then .pushhdrind
  else if arg ≥ 992 then .pushstk (arg - 992)
  else if arg ≥ 960 then .pushhdr (arg - 960)
  else .pushword (BitVec.ofNat 32 arg - 16)

inductive Bin
  | eq | lt | le | gt | ge | and | or | xor | neq | lsh | rsh | add | sub

inductive Cond
  | cor | cand | cnor | cnand

/-- The cases on `NETF_OP`. -/
inductive Op
  | nop
  | bin (b : Bin)
  | cond (c : Cond)

/-- `NETF_OP`, and the switch on it. -/
def netfOp (w : Word) : Option Op :=
  match (w >>> 10).toNat with
  | 0 => some .nop
  | 1 => some (.bin .eq)
  | 2 => some (.bin .lt)
  | 3 => some (.bin .le)
  | 4 => some (.bin .gt)
  | 5 => some (.bin .ge)
  | 6 => some (.bin .and)
  | 7 => some (.bin .or)
  | 8 => some (.bin .xor)
  | 9 => some (.cond .cor)
  | 10 => some (.cond .cand)
  | 11 => some (.cond .cnor)
  | 12 => some (.cond .cnand)
  | 13 => some (.bin .neq)
  | 14 => some (.bin .lsh)
  | 15 => some (.bin .rsh)
  | 16 => some (.bin .add)
  | 17 => some (.bin .sub)
  | _ => none

/-! ## The check -/

/-- The first switch of `parse_net_filter`: where it is then, and its count of the stack. -/
def parseArg (f : List Word) (fp : Nat) (sp : Int) : Arg → Option (Nat × Int)
  | .nopush | .pushind | .pushhdrind => some (fp, sp)
  | .pushzero | .pushword _ => some (fp, sp - 1)
  | .pushlit => if fp + 1 ≥ f.length then none else some (fp + 1, sp - 1)
  | .pushstk j => if j + sp > stackDepth then none else some (fp, sp - 1)
  | .pushhdr j => if j ≥ headerWords then none else some (fp, sp - 1)

/-- The loop body of `parse_net_filter` on the word `w` at `fp`. -/
def parseWord (f : List Word) (fp : Nat) (sp : Int) (w : Word) : Option (Nat × Int) := do
  let (fp, sp) ← parseArg f fp sp (netfArg w)
  if sp < 2 then none
  else
    match netfOp w with
    | some .nop => some (fp + 1, sp)
    | some _ => if sp > netMaxFilter - 2 then none else some (fp + 1, sp + 1)
    | none => none

/-- The loop of `parse_net_filter`, for a number of turns. -/
def parseLoop (f : List Word) : Nat → Nat → Int → Bool
  | 0, _, _ => true
  | n + 1, fp, sp =>
    match f[fp]? with
    | none => true
    | some w =>
      match parseWord f fp sp w with
      | none => false
      | some (fp, sp) => parseLoop f n fp sp

/-- `parse_net_filter`; each turn of its loop goes over one word or two. -/
def parseNetFilter (f : List Word) : Bool := parseLoop f f.length 1 stackDepth

/-! ## The run -/

/-- What a run depends on besides the filter. -/
structure Env where
  data : Nat → BitVec 16
  dataCount : BitVec 32
  header : Nat → BitVec 16

inductive Fault
  | stack (i : Int)
  | literal
  | header (i : Nat)
deriving DecidableEq

inductive Stop
  | ret (b : Bool)
  | fault (e : Fault)
deriving DecidableEq

structure State where
  sp : Int
  fp : Nat
  stack : Int → BitVec 32

/-- A use of `stack[i]`. -/
def State.read (s : State) (i : Int) : Except Stop (BitVec 32) :=
  if 0 ≤ i ∧ i ≤ stackDepth then .ok (s.stack i) else .error (.fault (.stack i))

/-- An assignment to `stack[i]`. -/
def State.write (s : State) (i : Int) (v : BitVec 32) : Except Stop State :=
  if 0 ≤ i ∧ i ≤ stackDepth then .ok { s with stack := Function.update s.stack i v }
  else .error (.fault (.stack i))

def Env.dataWord (env : Env) (k : BitVec 32) : Except Stop (BitVec 32) :=
  if k.toNat ≥ env.dataCount.toNat / 2 then .error (.ret false) else .ok ((env.data k.toNat).setWidth 32)

/-- The first switch of `net_do_filter`: the operand, and the state once it is fetched. -/
def operand (f : List Word) (env : Env) (s : State) : Arg → Except Stop (BitVec 32 × State)
  | .nopush => do
    let v ← s.read s.sp
    return (v, { s with sp := s.sp + 1 })
  | .pushzero => return (0, s)
  | .pushlit =>
    match f[s.fp]? with
    | some w => return (w.setWidth 32, { s with fp := s.fp + 1 })
    | none => .error (.fault .literal)
  | .pushind => do
    let k ← s.read s.sp
    let v ← env.dataWord k
    return (v, { s with sp := s.sp + 1 })
  | .pushhdrind => do
    let k ← s.read s.sp
    if k.toNat ≥ headerWords then .error (.ret false)
    else return ((env.header k.toNat).setWidth 32, { s with sp := s.sp + 1 })
  | .pushstk j => do
    let v ← s.read (s.sp + j)
    return (v, s)
  | .pushhdr j =>
    if j < headerWords then return ((env.header j).setWidth 32, s) else .error (.fault (.header j))
  | .pushword k => do
    let v ← env.dataWord k
    return (v, s)

def ofBool (b : Bool) : BitVec 32 := if b then 1 else 0

def Bin.eval : Bin → BitVec 32 → BitVec 32 → BitVec 32
  | .eq, a, v => ofBool (a = v)
  | .lt, a, v => ofBool (a.toNat < v.toNat)
  | .le, a, v => ofBool (a.toNat ≤ v.toNat)
  | .gt, a, v => ofBool (a.toNat > v.toNat)
  | .ge, a, v => ofBool (a.toNat ≥ v.toNat)
  | .and, a, v => a &&& v
  | .or, a, v => a ||| v
  | .xor, a, v => a ^^^ v
  | .neq, a, v => ofBool (a ≠ v)
  -- as the processor shifts
  | .lsh, a, v => a <<< (v.toNat % 32)
  | .rsh, a, v => a.sshiftRight (v.toNat % 32)
  | .add, a, v => a + v
  | .sub, a, v => a - v

def Cond.eval : Cond → BitVec 32 → BitVec 32 → Option Bool
  | .cor, a, v => if a = v then some true else none
  | .cand, a, v => if a ≠ v then some false else none
  | .cnor, a, v => if a = v then some false else none
  | .cnand, a, v => if a ≠ v then some true else none

/-- The second switch of `net_do_filter`, which has no default. -/
def operate (arg : BitVec 32) (s : State) : Option Op → Except Stop State
  | none => return s
  | some .nop => do
    let s ← s.write (s.sp - 1) arg
    return { s with sp := s.sp - 1 }
  | some (.bin b) => do
    let v ← s.read s.sp
    s.write s.sp (b.eval v arg)
  | some (.cond c) => do
    let v ← s.read s.sp
    match c.eval v arg with
    | some b => .error (.ret b)
    | none => return { s with sp := s.sp + 1 }

/-- The loop body of `net_do_filter` on the word `w`. -/
def step (f : List Word) (env : Env) (s : State) (w : Word) : Except Stop State := do
  let (arg, s) ← operand f env { s with fp := s.fp + 1 } (netfArg w)
  operate arg s (netfOp w)

inductive Outcome
  | stopped (e : Stop)
  | running (s : State)

def verdict (s : State) : Stop :=
  match s.read s.sp with
  | .ok v => .ret (v ≠ 0)
  | .error e => e

/-- The loop of `net_do_filter` and the test after it, for a number of turns. -/
def run (f : List Word) (env : Env) : Nat → State → Outcome
  | 0, s => .running s
  | n + 1, s =>
    match f[s.fp]? with
    | none => .stopped (verdict s)
    | some w =>
      match step f env s w with
      | .error e => .stopped e
      | .ok s => run f env n s

/-- The state in which `net_do_filter` enters its loop. What else is on the stack is not
known. -/
def start (stack : Int → BitVec 32) : State :=
  ⟨stackDepth, 1, Function.update stack stackDepth 1⟩

/-- `net_do_filter`, for a number of turns. -/
def netDoFilter (f : List Word) (env : Env) (stack : Int → BitVec 32) (turns : Nat) : Outcome :=
  run f env turns (start stack)

end Mach.Device.Cspf
