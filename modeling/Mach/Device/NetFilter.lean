import Mach.Device.Bpf
import Mach.Device.Cspf
import Mach.Lib.CInt
import Mach.Lib.Transition

/-!
# The filters of a network interface

`net_set_filter` and `net_filter` of `device/net_io.c`. An interface has a list of the
filters for packets that come in and one for packets that go out; a filter is on one of
them or on both. A filter with a match instruction is one of four hash headers, which
stands for several ports: it has no port of its own but a table of entries, and it is
taken off the lists with its last entry.

Each call holds both locks, so it is one step. What a filter answers to a packet is up to
the packet (`Packet.verdict`), and so is which ports are alive.
-/

namespace Mach.Device.NetFilter

open Mach.Lib Function

abbrev Word := Cspf.Word

inductive FilterId
  | own (n : Nat)
  | hash (i : Nat)
deriving DecidableEq

inductive Dir
  | rcv
  | snd
deriving DecidableEq

/-- `NETF_IN` and `NETF_OUT`. -/
def Dir.flag : Dir → Word
  | .rcv => 1
  | .snd => 2

/-- `struct net_hash_entry`. -/
structure Entry where
  id : Nat
  rcvPort : Nat
  keys : List (BitVec 32)
deriving DecidableEq

/-- `struct net_rcv_port`, and the part of `struct net_hash_header` after it. -/
structure Filter where
  rcvPort : Option Nat
  rcvCount : Int
  priority : Int
  filter : List Word
  refCount : Int
  table : Nat → List Entry

/-- What is kept for an interface, and the number of keys of each hash header, which is
zero if it is not used. -/
structure Iface where
  filters : FilterId → Filter
  ports : Dir → List FilterId
  nKeys : Nat → Nat
  nextFilter : Nat
  nextEntry : Nat

/-- `NET_HI_PRI`. -/
def netHiPri : Int := 100

/-- `N_NET_HASH`. -/
def nNetHash : Nat := 4

/-! ## The words of a filter -/

def faces (d : Dir) (filter : List Word) : Bool := filter.headD 0 &&& d.flag ≠ 0

def codeOf (filter : List Word) : Bpf.Code where
  insn i :=
    let word (j : Int) : Word := if 0 ≤ 4 * i + j then filter.getD (4 * i + j).toNat 0 else 0
    ⟨word 0, (word 1).setWidth 8, (word 1 >>> 8).setWidth 8, word 3 ++ word 2⟩
  bytes := 2 * filter.length

/-- The type of a filter is `NETF_BPF`. -/
def isBpf (filter : List Word) : Bool := filter.headD 0 &&& 0xfc00 = 0x0400

/-- The syntax check of `net_set_filter`. -/
def wellFormed (filter : List Word) : Bool :=
  if filter = [] then false
  else if ¬ (faces .rcv filter ∨ faces .snd filter) then false
  else if isBpf filter then Bpf.bpfValidate (codeOf filter) ≠ 0
  else if filter.headD 0 &&& 0xfc00 = 0 then Cspf.parseNetFilter filter
  else false

/-- The keys behind the match instruction that `bpf_validate` has found. -/
def matchKeys (filter : List Word) : Option (List (BitVec 32)) :=
  if isBpf filter then
    let code := codeOf filter
    match Bpf.validateLoop code code.len 1 none with
    | some (some i) => some <|
        (List.range (code.insn i).jt.toNat).map fun j => (code.insn (i + 1 + j : Nat)).k
    | _ => none
  else none

/-- `bpf_eq`: equal but for the keys. -/
def bpfEq (f₁ f₂ : Bpf.Code) (bytes : Nat) : Bool :=
  (List.range (bytes / 8)).all fun i =>
    f₁.insn i = f₂.insn i ∨ (f₁.insn i).code = Bpf.keyCode ∧ (f₂.insn i).code = Bpf.keyCode

/-! ## Taking filters off the lists -/

def Iface.unlist (s : Iface) (id : FilterId) : Iface :=
  { s with ports := fun d =>
      if faces d (s.filters id).filter then (s.ports d).erase id else s.ports d }

def Iface.setTable (s : Iface) (id : FilterId) (b : Nat) (es : List Entry) (refs : Int) : Iface :=
  let f := s.filters id
  let f' := { f with table := update f.table b es, refCount := refs }
  { s with filters := update s.filters id f' }

def Iface.retire (s : Iface) : FilterId → Iface
  | .own n => s.unlist (.own n)
  | .hash i => { s.unlist (.hash i) with nKeys := update s.nKeys i 0 }

/-- `hash_ent_remove`; with what it returns, whether the header is gone. -/
def hashEntRemove (s : Iface) (id : FilterId) (used : Bool) (b : Nat) (e : Entry) : Iface × Bool :=
  let refs := int ((s.filters id).refCount - 1)
  let s' := s.setTable id b (((s.filters id).table b).erase e) refs
  if (s.filters id).table b = [e] ∧ refs = 0 ∧ ¬ used then (s'.retire id, true) else (s', false)

/-! ## Setting a filter -/

/-- The arguments of `net_set_filter`, with what it finds outside of the interface. -/
structure Request where
  rcvPort : Nat
  priority : Int
  filter : List Word
  alive : Nat → Bool
  elsewhere : List Nat

/-- One list of a table. If its first entry goes, the loop takes the second for the first
and ends. -/
def gcBucket (s : Iface) (id : FilterId) (dead : Entry → Bool) (used : Bool) (b : Nat) :
    Iface × Bool :=
  match (s.filters id).table b with
  | [] => (s, false)
  | e :: es =>
    if dead e then hashEntRemove s id used b e
    else ((es.filter dead).foldl (fun s e => (hashEntRemove s id used b e).1) s, false)

def gcTable (id : FilterId) (dead : Entry → Bool) (used : Bool) : Iface → List Nat → Iface
  | s, [] => s
  | s, b :: bs =>
    if (gcBucket s id dead used b).2 then (gcBucket s id dead used b).1
    else gcTable id dead used (gcBucket s id dead used b).1 bs

def Request.replaces (r : Request) (port : Nat) : Bool := port = r.rcvPort ∨ ¬ r.alive port

def Request.joins (r : Request) (f : Filter) : Bool :=
  (matchKeys r.filter).isSome ∧ f.priority = r.priority ∧ f.filter.length = r.filter.length ∧
    bpfEq (codeOf f.filter) (codeOf r.filter) (2 * r.filter.length)

/-- The loop body of `check_filter_list`, with the filter that the new one is or joins. -/
def checkFilter (r : Request) (acc : Iface × Option FilterId) (id : FilterId) :
    Iface × Option FilterId :=
  let f := acc.1.filters id
  match f.rcvPort with
  | none =>
    let my := if acc.2.isNone ∧ r.joins f then some id else acc.2
    (gcTable id (fun e => r.replaces e.rcvPort) (my = some id) acc.1 (List.range Bpf.netHashSize), my)
  | some port => if r.replaces port then (acc.1.unlist id, acc.2) else acc

/-- `check_filter_list`, if the filter is for this direction. -/
def checkFilterList (r : Request) (d : Dir) (acc : Iface × Option FilterId) :
    Iface × Option FilterId :=
  if faces d r.filter then (acc.1.ports d).foldl (checkFilter r) acc else acc

def checkLists (s : Iface) (r : Request) : Iface × Option FilterId :=
  let my := if (matchKeys r.filter).isNone then some (.own s.nextFilter) else none
  checkFilterList r .snd (checkFilterList r .rcv (s, my))

def Iface.enter (s : Iface) (id : FilterId) (f : Filter) : Iface :=
  { s with
    filters := update s.filters id f
    ports := fun d => if faces d f.filter then s.ports d ++ [id] else s.ports d }

def Iface.insertEntry (s : Iface) (id : FilterId) (port : Nat) (keys : List (BitVec 32)) : Iface :=
  let b := Bpf.bpfHash keys.length fun i => keys.getD i 0
  { s.setTable id b ((s.filters id).table b ++ [⟨s.nextEntry, port, keys⟩])
      (int ((s.filters id).refCount + 1)) with
    nextEntry := s.nextEntry + 1 }

def freeHeader (s : Iface) (r : Request) : Option Nat :=
  (List.range nNetHash).find? fun i => s.nKeys i = 0 ∧ i ∉ r.elsewhere

inductive IoReturn
  | success
  | invalidOperation
  | noMemory
deriving DecidableEq

/-- `net_set_filter`. -/
def netSetFilter (s : Iface) (r : Request) : IoReturn × Iface :=
  if wellFormed r.filter then
    let t := (checkLists s r).1
    match matchKeys r.filter, (checkLists s r).2 with
    | none, _ =>
      let t := t.enter (.own s.nextFilter) ⟨some r.rcvPort, 0, r.priority, r.filter, 0, fun _ => []⟩
      (.success, { t with nextFilter := s.nextFilter + 1 })
    | some keys, some id => (.success, t.insertEntry id r.rcvPort keys)
    | some keys, none =>
      match freeHeader t r with
      | none => (.noMemory, t)
      | some i =>
        let t := t.enter (.hash i) ⟨none, 0, r.priority, r.filter, 0, fun _ => []⟩
        let t := { t with nKeys := update t.nKeys i keys.length }
        (.success, t.insertEntry (.hash i) r.rcvPort keys)
  else (.invalidOperation, s)

/-! ## Filtering a packet -/

/-- What a filter answers: nothing, or that the packet is for its port, or for that of an
entry in one of the lists of its table. -/
inductive Verdict
  | no
  | own
  | entry (b : Nat) (e : Entry)

/-- A packet, with what `net_filter` finds outside of the interface. -/
structure Packet where
  sent : Bool
  verdict : FilterId → Verdict
  alive : Nat → Bool
  /-- How often `net_kmsg_get` has a message. -/
  buffers : Nat
  /-- `net_filter_queue_reorder`. -/
  reorder : Bool
  /-- The priority and the count that are read through a link that does not lead to a
  filter. -/
  stray : Dir → Int × Int

def Packet.dir (p : Packet) : Dir := if p.sent then .snd else .rcv

def dest (s : Iface) (p : Packet) (id : FilterId) : Option Nat :=
  match p.verdict id with
  | .no => none
  | .own => (s.filters id).rcvPort
  | .entry _ e => some e.rcvPort

def dropDead (s : Iface) (p : Packet) (id : FilterId) : Iface :=
  match p.verdict id with
  | .no => s
  | .own => s.unlist id
  | .entry b e => (hashEntRemove s id false b e).1

def Iface.count (s : Iface) (id : FilterId) : Iface :=
  let f := s.filters id
  { s with filters := update s.filters id { f with rcvCount := int (f.rcvCount + 1) } }

/-- The loop of `net_filter`: the interface, whom the packet has been sent to, and the
filter of high priority that ended it. -/
def filterLoop (p : Packet) : List FilterId → Iface → List (FilterId × Nat) →
    Iface × List (FilterId × Nat) × Option FilterId
  | [], s, sendList => (s, sendList, none)
  | id :: rest, s, sendList =>
    match (dest s p id).filter p.alive with
    | none => filterLoop p rest (dropDead s p id) sendList
    | some port =>
      -- all but the first copy need a message of their own
      if p.buffers < sendList.length then (s, sendList, none)
      else if (s.filters id).priority ≥ netHiPri then
        (s.count id, sendList ++ [(id, port)], some id)
      else filterLoop p rest (s.count id) (sendList ++ [(id, port)])

inductive Before
  | head
  | filter (id : FilterId)
  | stray

/-- The element in front of `id`. -/
def before (id : FilterId) : List FilterId → Option FilterId
  | a :: b :: l => if b = id then some a else before id (b :: l)
  | _ => none

def Iface.before (s : Iface) (p : Packet) (d : Dir) (id : FilterId) : Before :=
  if faces d (s.filters id).filter then
    match NetFilter.before id (s.ports d) with
    | some q => .filter q
    | none => if d = p.dir then .head else .stray
  else .stray

def swap (q id : FilterId) : List FilterId → List FilterId
  | a :: b :: l => if a = q ∧ b = id then b :: a :: l else a :: swap q id (b :: l)
  | l => l

def promotes (s : Iface) (p : Packet) (id : FilterId) (priority count : Int) : Bool :=
  (s.filters id).priority = priority ∧ p.reorder ∧ int (100 + count) < (s.filters id).rcvCount

/-- `REORDER_PRIO` on the links of one direction. `reorder_queue` takes the links for those
of the list, which are the first field of a filter; there is no telling what it does to
the other ones, nor to what is no filter. -/
def reorderPrio (s : Iface) (p : Packet) (d : Dir) (id : FilterId) : Option Iface :=
  match s.before p d id with
  | .head => some s
  | .filter q =>
    if promotes s p id (s.filters q).priority (s.filters q).rcvCount then
      match d with
      | .rcv => some { s with ports := update s.ports .rcv (swap q id (s.ports .rcv)) }
      | .snd => none
    else some s
  | .stray => if promotes s p id (p.stray d).1 (p.stray d).2 then none else some s

/-- Whom `net_filter` sends the packet to. -/
def recipients (s : Iface) (p : Packet) : List (FilterId × Nat) :=
  (filterLoop p (s.ports p.dir) s []).2.1

/-- `net_filter`. -/
def netFilter (s : Iface) (p : Packet) : Option Iface :=
  match filterLoop p (s.ports p.dir) s [] with
  | (s, _, none) => some s
  | (s, _, some id) => (reorderPrio s p .rcv id).bind fun s => reorderPrio s p .snd id

/-! ## The system -/

inductive Act
  | set (r : Request)
  | packet (p : Packet)

def fresh (s : Iface) : Prop := (∀ d, s.ports d = []) ∧ ∀ i, s.nKeys i = 0

def lts : Lts Iface Act where
  init := fresh
  step s a :=
    match a with
    | .set r => some (netSetFilter s r).2
    | .packet p => netFilter s p

end Mach.Device.NetFilter
