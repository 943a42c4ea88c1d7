import Mathlib.Algebra.GroupWithZero.Nat
import Mathlib.Data.List.Basic

/-!
# The packet filter interpreter

`device/net_io.c`, the part that came from the Berkeley packet filter. A filter is an
array of instructions, of which the first holds the flags of the filter.
`bpf_validate` looks at a program once, when it is set; `bpf_do_filter` runs it on
every packet.

The program is read through a pointer, so the instruction memory `Code.insn` is a
function on all indices, those outside of the program too. The switch on the opcode is
`decode`, which gives the case that is taken, or none for the `default`. What the
validation is there to keep away ends a run with a `Fault`.
-/

namespace Mach.Device.Bpf

/-- `struct bpf_insn`. -/
structure Insn where
  code : BitVec 16
  jt : BitVec 8
  jf : BitVec 8
  k : BitVec 32
deriving DecidableEq

/-- `BPF_MEMWORDS`. -/
def memWords : Nat := 16

/-- `N_NET_HASH_KEYS`. -/
def nNetHashKeys : Nat := 4

/-- `NET_HASH_SIZE`. -/
def netHashSize : Nat := 256

/-- `NET_RCV_MAX`, which the interpreter takes for the length of the packet. -/
def netRcvMax : Nat := 4095

/-! ## Opcodes -/

inductive Size
  | w | h | b
deriving DecidableEq

inductive Src
  | k | x
deriving DecidableEq

inductive Alu
  | add | sub | mul | div | or | and | lsh | rsh
deriving DecidableEq

inductive Test
  | eq | gt | ge | set
deriving DecidableEq

/-- The cases of the switch in `bpf_do_filter`. -/
inductive Op
  | retK | retA | retMatchImm
  | ldAbs (s : Size) | ldInd (s : Size) | ldLen | ldxLen | ldxMsh
  | ldImm | ldxImm | ldMem | ldxMem | st | stx
  | ja | jump (t : Test) (src : Src)
  | alu (a : Alu) (src : Src) | neg
  | tax | txa
deriving DecidableEq

def Size.code : Size → BitVec 16
  | .w => 0x00
  | .h => 0x08
  | .b => 0x10

def Src.code : Src → BitVec 16
  | .k => 0x00
  | .x => 0x08

def Alu.code : Alu → BitVec 16
  | .add => 0x00
  | .sub => 0x10
  | .mul => 0x20
  | .div => 0x30
  | .or => 0x40
  | .and => 0x50
  | .lsh => 0x60
  | .rsh => 0x70

def Test.code : Test → BitVec 16
  | .eq => 0x10
  | .gt => 0x20
  | .ge => 0x30
  | .set => 0x40

def Op.code : Op → BitVec 16
  | .retK => 0x06 ||| 0x00
  | .retA => 0x06 ||| 0x10
  | .retMatchImm => 0x06 ||| 0x18
  | .ldAbs s => 0x00 ||| s.code ||| 0x20
  | .ldInd s => 0x00 ||| s.code ||| 0x40
  | .ldLen => 0x00 ||| 0x00 ||| 0x80
  | .ldxLen => 0x01 ||| 0x00 ||| 0x80
  | .ldxMsh => 0x01 ||| 0xa0 ||| 0x10
  | .ldImm => 0x00 ||| 0x00
  | .ldxImm => 0x01 ||| 0x00
  | .ldMem => 0x00 ||| 0x60
  | .ldxMem => 0x01 ||| 0x60
  | .st => 0x02
  | .stx => 0x03
  | .ja => 0x05 ||| 0x00
  | .jump t src => 0x05 ||| t.code ||| src.code
  | .alu a src => 0x04 ||| a.code ||| src.code
  | .neg => 0x04 ||| 0x80
  | .tax => 0x07 ||| 0x00
  | .txa => 0x07 ||| 0x80

/-- `BPF_MISC|BPF_KEY`, the code of the instructions that only carry a key. -/
def keyCode : BitVec 16 := 0x07 ||| 0x10

def Op.all : List Op :=
  [.retK, .retA, .retMatchImm] ++
  ([Size.w, .h, .b].flatMap fun s => [.ldAbs s, .ldInd s]) ++
  [.ldLen, .ldxLen, .ldxMsh, .ldImm, .ldxImm, .ldMem, .ldxMem, .st, .stx, .ja] ++
  ([Test.eq, .gt, .ge, .set].flatMap fun t => [.jump t .k, .jump t .x]) ++
  ([Alu.add, .sub, .mul, .div, .or, .and, .lsh, .rsh].flatMap fun a => [.alu a .k, .alu a .x]) ++
  [.neg, .tax, .txa]

def decode (code : BitVec 16) : Option Op := Op.all.find? (·.code = code)

/-- `BPF_CLASS`. -/
def cls (code : BitVec 16) : BitVec 16 := code &&& 0x07

/-- `BPF_OP`. -/
def opField (code : BitVec 16) : BitVec 16 := code &&& 0xf0

/-! ## Programs and their validation -/

/-- A filter: its instruction memory and how many bytes of it are the program. -/
structure Code where
  insn : Int → Insn
  bytes : Nat

/-- `BPF_BYTES2LEN`. -/
def Code.len (f : Code) : Nat := f.bytes / 8

/-- The tests of `bpf_validate` on one instruction, apart from those on keys. -/
def insnOk (i len : Nat) (p : Insn) : Bool :=
  let jumps := cls p.code = 0x05
  let from' := i + 1
  -- the sum of a jump is one of C integers
  if jumps ∧ opField p.code = 0x00 ∧ (BitVec.ofNat 32 from' + p.k).toInt ≥ len then false
  else if jumps ∧ opField p.code ≠ 0x00 ∧ (from' + p.jt.toNat ≥ len ∨ from' + p.jf.toNat ≥ len) then false
  else if (cls p.code = 0x02 ∨ (cls p.code = 0x00 ∧ p.code &&& 0xe0 = 0x60)) ∧
      (p.k.toInt ≥ memWords ∨ p.k.toInt < 0) then false
  else if p.code = (Op.alu .div .k).code ∧ p.k = 0 then false
  else true

/-- The loop of `bpf_validate`; the last argument is `*match`. The counter bounds its
turns, of which there are at most `len`. -/
def validateLoop (f : Code) : Nat → Nat → Option Nat → Option (Option Nat)
  | 0, _, found => some found
  | n + 1, i, found =>
    if i < f.len then
      let p := f.insn i
      if ¬ insnOk i f.len p then none
      else if p.code = Op.retMatchImm.code then
        if found.isSome ∨ p.jt = 0 ∨ p.jt.toNat > nNetHashKeys then none
        else
          let last := i + p.jt.toNat
          if last + 1 > f.len then none
          else if ∃ j < p.jt.toNat, (f.insn (i + 1 + j : Nat)).code ≠ keyCode then none
          else validateLoop f n (last + 1) (some i)
      else validateLoop f n (i + 1) found
    else some found

/-- `bpf_validate`. -/
def bpfValidate (f : Code) : Nat :=
  match validateLoop f f.len 1 none with
  | none => 0
  | some found =>
    if cls (f.insn ((f.len : Int) - 1)).code = 0x06 then (if found.isNone then 1 else 2) else 0

/-! ## Running a program -/

/-- `struct net_hash_entry`, with an identity in place of the port. -/
structure HashEntry where
  id : Nat
  keys : Nat → BitVec 32

/-- Where the kernel runs, which decides how wide a `size_t` is. -/
inductive Arch
  | i386 | x86_64
deriving DecidableEq

/-- How many values a `size_t` has. -/
def Arch.sizes : Arch → Nat
  | .i386 => 4294967296
  | .x86_64 => 18446744073709551616

/-- What a run depends on besides the program: the packet, and the filter it is run for. -/
structure Env where
  arch : Arch
  packet : Int → BitVec 8
  wirelen : BitVec 32
  header : Int → BitVec 8
  hlen : BitVec 32
  rcvPortNull : Bool
  nKeys : Nat
  table : Nat → List HashEntry

inductive Fault
  | memIndex (i : Int)
  | divideByZero
  | undefinedOpcode
deriving DecidableEq

structure State where
  a : BitVec 32
  x : BitVec 32
  mem : Nat → BitVec 32
  ent : Option HashEntry
  pc : Int

inductive Next
  | go (s : State)
  | ret (count : BitVec 32) (ent : Option HashEntry)
  | fault (e : Fault)

/-- `bpf_hash`. -/
def bpfHash (n : Nat) (keys : Nat → BitVec 32) : Nat :=
  ((List.range n).foldl (fun hval i => hval + keys i) (0 : BitVec 32)).toNat % netHashSize

/-- `bpf_match`, once the number of keys is right. -/
def bpfMatch (env : Env) (n : Nat) (keys : Nat → BitVec 32) : Option HashEntry :=
  (env.table (bpfHash n keys)).find? fun e => (List.range n).all fun i => keys i = e.keys i

def accepted (env : Env) (count : BitVec 32) : BitVec 32 :=
  if count.toNat ≤ env.wirelen.toNat then count else env.wirelen

/-- A return of `count` bytes, by the filter's own port. -/
def retOwn (env : Env) (s : State) (count : BitVec 32) : Next :=
  if env.rcvPortNull ∧ s.ent.isNone then .ret 0 s.ent else .ret (accepted env count) s.ent

def Size.bytes : Size → Nat
  | .w => 4
  | .h => 2
  | .b => 1

/-- What is read of `n` bytes: words and halves are in network order, a byte is a `char`. -/
def readData (s : Size) (data : Int → BitVec 8) (k : Int) : BitVec 32 :=
  match s with
  | .w => data k ++ data (k + 1) ++ data (k + 2) ++ data (k + 3)
  | .h => (data k ++ data (k + 1)).setWidth 32
  | .b => (data k).signExtend 32

/-- The end of a load as it is tested: a sum in `size_t`, but for a byte, of which `k` itself
is tested. -/
def Size.stop (arch : Arch) (s : Size) (k : BitVec 32) : Nat :=
  match s with
  | .b => k.toNat + 1
  | _ => (k.toNat + s.bytes) % arch.sizes

/-- The bytes at offset `k` of the header and the packet after it, unless they are beyond. -/
def fetch (env : Env) (s : Size) (k : BitVec 32) : Option (BitVec 32) :=
  if s.stop env.arch k ≤ env.hlen.toNat then some (readData s env.header k.toInt)
  else if s.stop env.arch k ≤ netRcvMax then some (readData s env.packet (k - env.hlen).toInt)
  else none

/-- `load_word`, `load_half` and `load_byte`. -/
def load (env : Env) (s : State) (size : Size) (k : BitVec 32) : Next :=
  match fetch env size k with
  | none => .ret 0 s.ent
  | some v => .go { s with a := v }

/-- A use of `mem[k]`. -/
def withMem (k : BitVec 32) (f : Nat → Next) : Next :=
  if 0 ≤ k.toInt ∧ k.toInt < memWords then f k.toNat else .fault (.memIndex k.toInt)

def Alu.eval : Alu → BitVec 32 → BitVec 32 → BitVec 32
  | .add, a, v => a + v
  | .sub, a, v => a - v
  | .mul, a, v => a * v
  | .div, a, v => a / v
  | .or, a, v => a ||| v
  | .and, a, v => a &&& v
  -- as the processor shifts
  | .lsh, a, v => a <<< (v.toNat % 32)
  | .rsh, a, v => a >>> (v.toNat % 32)

def Test.eval : Test → BitVec 32 → BitVec 32 → Bool
  | .eq, a, v => a = v
  | .gt, a, v => a.toNat > v.toNat
  | .ge, a, v => a.toNat ≥ v.toNat
  | .set, a, v => a &&& v ≠ 0

def Src.eval (src : Src) (s : State) (p : Insn) : BitVec 32 :=
  match src with
  | .k => p.k
  | .x => s.x

/-- One case of the switch; `pc` is where the loop adds one to it. -/
def exec (env : Env) (p : Insn) (s : State) : Op → Next
  | .retK => retOwn env s p.k
  | .retA => retOwn env s s.a
  | .retMatchImm =>
    if p.jt.toNat ≠ env.nKeys then .ret 0 s.ent
    -- the keys are the first words of `mem`
    else if p.jt.toNat > memWords then .fault (.memIndex memWords)
    else
      match bpfMatch env p.jt.toNat s.mem with
      | none => .ret 0 s.ent
      | some e => .ret (accepted env p.k) (some e)
  | .ldAbs size => load env s size p.k
  | .ldInd size => load env s size (s.x + p.k)
  | .ldLen => .go { s with a := env.wirelen }
  | .ldxLen => .go { s with x := env.wirelen }
  | .ldxMsh =>
    match fetch env .b p.k with
    | none => .ret 0 s.ent
    | some v => .go { s with x := (v &&& 0xf) <<< 2 }
  | .ldImm => .go { s with a := p.k }
  | .ldxImm => .go { s with x := p.k }
  | .ldMem => withMem p.k fun i => .go { s with a := s.mem i }
  | .ldxMem => withMem p.k fun i => .go { s with x := s.mem i }
  | .st => withMem p.k fun i => .go { s with mem := Function.update s.mem i s.a }
  | .stx => withMem p.k fun i => .go { s with mem := Function.update s.mem i s.x }
  | .ja => .go { s with pc := s.pc + p.k.toInt }
  | .jump t src =>
    .go { s with pc := s.pc + (if t.eval s.a (src.eval s p) then p.jt.toNat else p.jf.toNat) }
  | .alu a src =>
    let v := src.eval s p
    if a = .div ∧ v = 0 then
      -- only a divisor in `X` is tested
      match src with
      | .x => .ret 0 s.ent
      | .k => .fault .divideByZero
    else .go { s with a := a.eval s.a v }
  | .neg => .go { s with a := -s.a }
  | .tax => .go { s with x := s.a }
  | .txa => .go { s with a := s.x }

def step (f : Code) (env : Env) (s : State) : Next :=
  match decode (f.insn s.pc).code with
  | none => .fault .undefinedOpcode
  | some op => exec env (f.insn s.pc) s op

/-- How a run ends: by a return instruction, at the end of the program, or not well. -/
inductive Outcome
  | returned (count : BitVec 32) (ent : Option HashEntry)
  | fellOff
  | fault (e : Fault)
  | running (s : State)

/-- The loop of `bpf_do_filter`, for a number of turns. -/
def run (f : Code) (env : Env) : Nat → State → Outcome
  | 0, s => .running s
  | n + 1, s =>
    if 8 * s.pc < f.bytes then
      match step f env s with
      | .go s' => run f env n { s' with pc := s'.pc + 1 }
      | .ret count ent => .returned count ent
      | .fault e => .fault e
    else .fellOff

def visited (f : Code) (env : Env) : Nat → State → List Int
  | 0, _ => []
  | n + 1, s =>
    if 8 * s.pc < f.bytes then
      s.pc :: match step f env s with
        | .go s' => visited f env n { s' with pc := s'.pc + 1 }
        | _ => []
    else []

/-- The state in which `bpf_do_filter` enters its loop. What is in `mem` is not known. -/
def start (mem : Nat → BitVec 32) : State := ⟨0, 0, mem, none, 1⟩

/-- `bpf_do_filter`, for a number of turns. -/
def bpfDoFilter (f : Code) (env : Env) (mem : Nat → BitVec 32) (turns : Nat) : Outcome :=
  run f env turns (start mem)

end Mach.Device.Bpf
