import Mach.Lib.Fallible
import Mathlib.Algebra.GroupWithZero.Nat
import Mathlib.Data.List.Basic

/-!
# Memory object proxies

`vm/memory_object_proxy.c` and the part of `vm_map` in `vm/vm_user.c` that maps a proxy. A
proxy stands for a window of another memory object, which may be a proxy again, and allows
at most some kinds of access. Offsets and sizes are numbers of 64 bits and wrap.

A proxy does not change after it was made, and the object it is made from exists already;
so a memory object is the chain of proxies that leads to the real one.
-/

namespace Mach.Vm.MemoryObject

open Lib List Option Nat

/-- `vm_offset_t` and `vm_size_t`. -/
abbrev Word := BitVec 64

/-- `vm_prot_t`. -/
abbrev Prot := BitVec 32

/-- `VM_PROT_READ`. -/
def protRead : Prot := 1

/-- `VM_PROT_ALL`. -/
def protAll : Prot := 7

inductive KernReturn
  | invalidTask | invalidArgument | invalidName | resourceShortage | protectionFailure
  /-- what `vm_object_copy_strategically` and `vm_map_enter` return otherwise -/
  | other (code : Nat)
  deriving DecidableEq

/-- `struct memory_object_proxy`, without its ports. -/
structure Proxy where
  maxProtection : Prot
  start : Word
  len : Word
  fits : start.toNat + len.toNat < 2 ^ 64

inductive Memobj
  | pager (id : Nat)
  | foreign (id : Nat)
  | proxy (p : Proxy) (object : Memobj)

namespace Memobj

def proxies : Memobj → List Proxy
  | .proxy p object => p :: object.proxies
  | _ => []

def resolve : Memobj → Nat → Option Nat
  | .proxy p object, x => if x < p.len.toNat then object.resolve (p.start.toNat + x) else none
  | _, x => some x

def shift (o : Memobj) : Nat := (o.proxies.map fun p => p.start.toNat).sum

end Memobj

/-! ## The functions -/

theorem fits_of_not_wrap {start len : Word} (h : ¬ start + len < start) :
    start.toNat + len.toNat < 2 ^ 64 := by
  rw [BitVec.lt_def, BitVec.toNat_add] at h
  omega

/-- `memory_object_create_proxy`. `space` says that there is one and `nomem` that no port
can be allocated; an object `none` is not a valid port. -/
def memoryObjectCreateProxy (space : Bool) (maxProtection : Prot) (object : List (Option Memobj))
    (offset start len : List Word) (nomem : Bool) : Except KernReturn Memobj :=
  if ¬ space then .error .invalidTask
  else if offset.length ≠ object.length ∨ start.length ≠ object.length ∨
      len.length ≠ object.length then .error .invalidArgument
  else
    match object, offset, start, len with
    | [object], [offset], [start], [len] =>
      match object with
      | none => .error .invalidName
      | some object =>
        if offset ≠ 0 then .error .invalidArgument
        else if h : start + len < start then .error .invalidArgument
        else if nomem then .error .resourceShortage
        else .ok (.proxy ⟨maxProtection, start, len, fits_of_not_wrap h⟩ object)
    | _, _, _, _ => .error .invalidArgument

/-- What `memory_object_proxy_lookup` finds. -/
structure Lookup where
  object : Memobj
  maxProtection : Prot
  start : Word
  len : Word

/-- `MIN`. -/
def minWord (x y : Word) : Word := if x < y then x else y

/-- The loop of `memory_object_proxy_lookup`, at the proxy `p` of `object`. -/
def proxyLoop (maxProtection : Prot) (p : Proxy) : Memobj → Word → Word → Lookup
  | object, start, len =>
    let len := if p.len ≤ start then 0 else minWord len (p.len - start)
    let start := start + p.start
    match object with
    | .proxy p' object' => proxyLoop maxProtection p' object' start len
    | object => ⟨object, maxProtection, start, len⟩

/-- `memory_object_proxy_lookup`, unless the port is not a proxy. -/
def memoryObjectProxyLookup : Memobj → Option Lookup
  | .proxy p object => some (proxyLoop p.maxProtection p object 0 (~~~0))
  | _ => none

/-- `vm_object_enter`, of a valid port. -/
def vmObjectEnter : Memobj → Option Nat
  | .pager id => some id
  | _ => none

/-- The arguments of `vm_map` that matter here. -/
structure Call where
  map : Bool
  size : Word
  object : Option Memobj
  offset : Word
  copy : Bool
  curProtection : Prot
  maxProtection : Prot
  inheritance : Bool

/-- A new mapping, or a copy that is mapped: of which object, and which part of it. -/
structure Mapping where
  object : Option Nat
  offset : Word
  size : Word
  copy : Bool
  curProtection : Prot
  maxProtection : Prot
  deriving DecidableEq

/-- `round_page`. -/
def roundPage (x : Word) : Word := (x + 4095) &&& ~~~4095

/-- The rest of `vm_map`, from where it has the object: `copied` and `entered` are the errors
of `vm_object_copy_strategically` and of `vm_map_enter` for a map with no room. -/
def finishMap (copied entered : Option KernReturn) (m : Mapping) : Except KernReturn Mapping :=
  match m.copy, copied with
  | true, some e => .error e
  | _, _ =>
    -- the first check of `vm_map_enter`
    if m.size = 0 then .error .invalidArgument
    else
      match entered with
      | some e => .error e
      | none => .ok m

/-- `vm_map`. -/
def vmMap (copied entered : Option KernReturn) (c : Call) : Except KernReturn Mapping :=
  if ¬ c.map ∨ c.curProtection &&& ~~~protAll ≠ 0 ∨ c.maxProtection &&& ~~~protAll ≠ 0 then
    .error .invalidArgument
  else if ¬ c.inheritance then .error .invalidArgument
  else if c.size = 0 then .error .invalidArgument
  else
    let size := roundPage c.size
    match c.object with
    | none => finishMap copied entered ⟨none, 0, size, false, c.curProtection, c.maxProtection⟩
    | some object =>
      match vmObjectEnter object with
      | some id =>
        finishMap copied entered ⟨some id, c.offset, size, c.copy, c.curProtection, c.maxProtection⟩
      | none =>
        match memoryObjectProxyLookup object with
        | none => .error .invalidArgument
        | some l =>
          if c.copy ∧ l.maxProtection &&& protRead = 0 then .error .protectionFailure
          else if l.start + c.offset + size > l.start + l.len then .error .invalidArgument
          else
            match vmObjectEnter l.object with
            | none => .error .invalidArgument
            | some id =>
              let mask (prot : Prot) := if c.copy then prot else prot &&& l.maxProtection
              finishMap copied entered ⟨some id, c.offset + l.start, size, c.copy,
                mask c.curProtection, mask c.maxProtection⟩

/-! ## What a proxy confines -/

/-- The mapping keeps to the proxies of the object. -/
structure Confined (object : Memobj) (m : Mapping) : Prop where
  range : ∀ i < m.size.toNat, ∃ x, object.resolve x = some (m.offset + BitVec.ofNat 64 i).toNat
  protection : m.copy = false → ∀ p ∈ object.proxies, m.maxProtection &&& ~~~p.maxProtection = 0
  reading : m.copy → ∀ p ∈ object.proxies, p.maxProtection &&& protRead ≠ 0

/-- The arguments for which it does: the windows and the range together do not wrap, and the
proxies behind the first one are not stricter than it is. -/
structure Fits (p : Proxy) (object : Memobj) (c : Call) : Prop where
  range : (Memobj.proxy p object).shift + c.offset.toNat + (roundPage c.size).toNat < 2 ^ 64
  protection : c.copy = false → ∀ q ∈ object.proxies,
    c.maxProtection &&& p.maxProtection &&& ~~~q.maxProtection = 0
  reading : c.copy → ∀ q ∈ object.proxies, q.maxProtection &&& protRead ≠ 0

/-! ## Windows -/

theorem Memobj.shift_proxy (p : Proxy) (o : Memobj) :
    (Memobj.proxy p o).shift = p.start.toNat + o.shift := sum_cons ..

variable {o : Memobj} {p : Proxy}

theorem Memobj.resolve_eq : ∀ {x y : Nat}, o.resolve x = some y → y = o.shift + x := by
  induction o with
  | pager | foreign =>
    intro x y h
    cases h
    exact (zero_add x).symm
  | proxy p o ih =>
    intro x y h
    rw [resolve] at h
    split at h
    · rw [ih h, shift_proxy]
      omega
    · cases h

theorem Memobj.resolve_lt :
    ∀ (p : Proxy) {x y : Nat}, (Memobj.proxy p o).resolve x = some y → y + 1 < 2 ^ 64 := by
  induction o with
  | pager | foreign =>
    intro p x y h
    have hfits := p.fits
    rw [resolve] at h
    split at h
    · cases h
      omega
    · cases h
  | proxy q o ih =>
    intro p x y h
    rw [resolve] at h
    split at h
    · exact ih q h
    · cases h

theorem proxyLoop_spec (prot : Prot) (o : Memobj) :
    ∀ (p : Proxy) (start len : Word) (st : Nat), start.toNat = st % 2 ^ 64 →
      (st < 2 ^ 64 ∨ len = 0) →
      (proxyLoop prot p o start len).maxProtection = prot ∧
      (proxyLoop prot p o start len).start.toNat = (st + (Memobj.proxy p o).shift) % 2 ^ 64 ∧
      ∀ x, x < (proxyLoop prot p o start len).len.toNat ↔
        x < len.toNat ∧ ((Memobj.proxy p o).resolve (st + x)).isSome := by
  -- one turn of the loop
  have hturn : ∀ (p : Proxy) (start len : Word) (st : Nat), start.toNat = st % 2 ^ 64 →
      (st < 2 ^ 64 ∨ len = 0) → ∀ len', len' = (if p.len ≤ start then 0 else minWord len (p.len - start)) →
      (start + p.start).toNat = (st + p.start.toNat) % 2 ^ 64 ∧
      (st + p.start.toNat < 2 ^ 64 ∨ len' = 0) ∧
      ∀ x, x < len'.toNat ↔ x < len.toNat ∧ st + x < p.len.toNat := by
    intro p start len st hst hlen len' hlen'
    have hfits := p.fits
    have hstart : (start + p.start).toNat = (st + p.start.toNat) % 2 ^ 64 := by
      rw [BitVec.toNat_add]
      omega
    rcases Nat.lt_or_ge st (2 ^ 64) with hexact | hwrap
    · rw [Nat.mod_eq_of_lt hexact] at hst
      split at hlen'
      next hle =>
        rw [BitVec.le_def] at hle
        refine ⟨hstart, .inr hlen', fun x => ?_⟩
        rw [hlen', show (0 : Word).toNat = 0 from rfl]
        omega
      next hlt =>
        rw [BitVec.le_def] at hlt
        have hsub : (p.len - start).toNat = p.len.toNat - st := by
          rw [BitVec.toNat_sub_of_le (by rw [BitVec.le_def]; omega), hst]
        refine ⟨hstart, .inl (by omega), fun x => ?_⟩
        rw [hlen', minWord]
        split
        next hle =>
          rw [BitVec.lt_def] at hle
          omega
        next hle =>
          rw [BitVec.lt_def] at hle
          omega
    · obtain rfl := hlen.resolve_left (by omega)
      have hzero : len' = 0 := by
        rw [hlen', minWord]
        split
        · rfl
        next hlt =>
          rw [BitVec.le_def] at hlt
          rw [if_pos]
          rw [BitVec.lt_def, BitVec.toNat_sub_of_le (by rw [BitVec.le_def]; omega),
            show (0 : Word).toNat = 0 from rfl]
          omega
      refine ⟨hstart, .inr hzero, fun x => ?_⟩
      rw [hzero, show (0 : Word).toNat = 0 from rfl]
      omega
  induction o with
  | pager | foreign =>
    intro p start len st hst hlen
    obtain ⟨hstart, -, hx⟩ := hturn p start len st hst hlen _ rfl
    refine ⟨rfl, hstart, fun x => ?_⟩
    refine (hx x).trans (and_congr_right fun _ => ?_)
    rw [Memobj.resolve]
    split
    next hin => exact iff_of_true hin rfl
    next hout => exact iff_of_false hout nofun
  | proxy q o ih =>
    intro p start len st hst hlen
    obtain ⟨hstart, hlen', hx⟩ := hturn p start len st hst hlen _ rfl
    obtain ⟨hprot, hstart', hx'⟩ := ih q _ _ _ hstart hlen'
    rw [proxyLoop]
    refine ⟨hprot, ?_, fun x => ?_⟩
    · rw [hstart', Memobj.shift_proxy p, Nat.add_assoc]
    rw [hx', hx, and_assoc]
    refine and_congr_right fun _ => ?_
    conv_rhs => rw [Memobj.resolve]
    rw [show st + p.start.toNat + x = p.start.toNat + (st + x) by omega]
    split
    next hin => exact ⟨fun h => h.2, fun h => ⟨hin, h⟩⟩
    next hout => exact iff_of_false (fun h => hout h.1) nofun

theorem memoryObjectProxyLookup_spec {l : Lookup}
    (h : memoryObjectProxyLookup (.proxy p o) = some l) :
    l.maxProtection = p.maxProtection ∧ l.start.toNat = (Memobj.proxy p o).shift % 2 ^ 64 ∧
      ∀ x, x < l.len.toNat ↔ ((Memobj.proxy p o).resolve x).isSome := by
  cases h
  obtain ⟨hprot, hstart, hx⟩ := proxyLoop_spec p.maxProtection o p 0 (~~~0) 0 rfl (.inl (by decide))
  simp only [zero_add] at hstart hx
  refine ⟨hprot, hstart, fun x => (hx x).trans (and_iff_right_of_imp fun hsome => ?_)⟩
  obtain ⟨y, hy⟩ := isSome_iff_exists.mp hsome
  have hlt := Memobj.resolve_lt p hy
  have heq := Memobj.resolve_eq hy
  show x < 2 ^ 64 - 1
  omega

/-! ## Confinement -/

theorem finishMap_ok {copied entered : Option KernReturn} {m m' : Mapping}
    (h : finishMap copied entered m = .ok m') : m' = m ∧ m.size ≠ 0 := by
  unfold finishMap at h
  split at h
  · cases h
  obtain ⟨hsize, h⟩ := of_ite_error h
  split at h
  · cases h
  · cases h
    exact ⟨rfl, hsize⟩

theorem vmMap_proxy {copied entered : Option KernReturn} {c : Call} {m : Mapping}
    (hobject : c.object = some (.proxy p o)) (h : vmMap copied entered c = .ok m) :
    ∃ l, memoryObjectProxyLookup (.proxy p o) = some l ∧
      (c.copy → p.maxProtection &&& protRead ≠ 0) ∧
      ¬ l.start + c.offset + roundPage c.size > l.start + l.len ∧ m.size ≠ 0 ∧
      m.size = roundPage c.size ∧ m.offset = c.offset + l.start ∧ m.copy = c.copy ∧
      (c.copy = false → m.maxProtection = c.maxProtection &&& p.maxProtection) := by
  unfold vmMap at h
  rw [hobject] at h
  split at h
  · cases h
  split at h
  · cases h
  split at h
  · cases h
  obtain ⟨l, hl⟩ : ∃ l, memoryObjectProxyLookup (.proxy p o) = some l := ⟨_, rfl⟩
  obtain ⟨hprot, -, -⟩ := memoryObjectProxyLookup_spec hl
  simp only [vmObjectEnter, hl] at h
  obtain ⟨hread, h⟩ := of_ite_error h
  obtain ⟨hrange, h⟩ := of_ite_error h
  split at h
  · cases h
  obtain ⟨rfl, hsize⟩ := finishMap_ok h
  refine ⟨l, hl, fun hc h0 => hread ⟨hc, hprot ▸ h0⟩, hrange, hsize, rfl, rfl, rfl, fun hc => ?_⟩
  show (if c.copy then _ else _) = _
  rw [hc, hprot]
  rfl

theorem range_iff {l : Lookup} {offset size : Word}
    (hl : memoryObjectProxyLookup (.proxy p o) = some l)
    (hrange : ¬ l.start + offset + size > l.start + l.len) (hsize : size ≠ 0) :
    (∀ i < size.toNat, ∃ x, (Memobj.proxy p o).resolve x =
        some (offset + l.start + BitVec.ofNat 64 i).toNat) ↔
      (Memobj.proxy p o).shift + offset.toNat + size.toNat < 2 ^ 64 := by
  obtain ⟨-, hstart, hwindow⟩ := memoryObjectProxyLookup_spec hl
  have hpos : 0 < size.toNat := Nat.pos_of_ne_zero fun h0 => hsize (BitVec.eq_of_toNat_eq h0)
  have hbyte : ∀ i < size.toNat, (offset + l.start + BitVec.ofNat 64 i).toNat =
      (offset.toNat + (Memobj.proxy p o).shift + i) % 2 ^ 64 := by
    intro i hi
    rw [BitVec.toNat_add, BitVec.toNat_add, BitVec.toNat_ofNat]
    omega
  constructor
  · intro hbytes
    by_contra hwrap
    -- the first byte is not before the window, so the range wraps later than there
    obtain ⟨x, hx⟩ := hbytes 0 hpos
    rw [hbyte 0 hpos] at hx
    have hlow := Memobj.resolve_eq hx
    have hlast : 2 ^ 64 - 1 - ((Memobj.proxy p o).shift + offset.toNat) < size.toNat := by omega
    obtain ⟨y, hy⟩ := hbytes _ hlast
    rw [hbyte _ hlast] at hy
    have hlt := Memobj.resolve_lt p hy
    omega
  · intro hfits i hi
    have hexact : l.start.toNat = (Memobj.proxy p o).shift := by
      rw [hstart, Nat.mod_eq_of_lt (by omega)]
    have hle : (l.start + offset + size).toNat ≤ (l.start + l.len).toNat := Nat.not_lt.mp hrange
    rw [BitVec.toNat_add, BitVec.toNat_add, BitVec.toNat_add] at hle
    have hend : (Memobj.proxy p o).shift + l.len.toNat < 2 ^ 64 := by
      rcases Nat.eq_zero_or_pos l.len.toNat with h0 | hlen
      · omega
      · obtain ⟨y, hy⟩ := isSome_iff_exists.mp ((hwindow (l.len.toNat - 1)).mp (by omega))
        have hlt := Memobj.resolve_lt p hy
        have heq := Memobj.resolve_eq hy
        omega
    obtain ⟨y, hy⟩ := isSome_iff_exists.mp ((hwindow (offset.toNat + i)).mp (by omega))
    refine ⟨_, hy.trans (congrArg some ?_)⟩
    rw [Memobj.resolve_eq hy, hbyte i hi]
    omega

/-- **A proxy confines its holder** in a call of `vm_map` that succeeds, exactly when the
range does not wrap and the proxies behind it are not stricter. -/
theorem vmMap_confined_iff (copied entered : Option KernReturn) (c : Call) (p : Proxy) (o : Memobj)
    (m : Mapping) (hobject : c.object = some (.proxy p o)) (h : vmMap copied entered c = .ok m) :
    Confined (.proxy p o) m ↔ Fits p o c := by
  obtain ⟨l, hl, hread, hrange, hne, hsize, hoffset, hcopy, hprot⟩ := vmMap_proxy hobject h
  have hiff := range_iff hl hrange (hsize ▸ hne)
  rw [← hoffset, ← hsize] at hiff
  constructor
  · intro hconf
    refine ⟨hsize ▸ hiff.mp hconf.range, fun hc q hq => ?_, fun hc q hq => ?_⟩
    · rw [← hprot hc]
      exact hconf.protection (hcopy.trans hc) q (mem_cons_of_mem _ hq)
    · exact hconf.reading (hcopy.trans hc) q (mem_cons_of_mem _ hq)
  · intro hfits
    refine ⟨hiff.mpr (hsize ▸ hfits.range), fun hc q hq => ?_, fun hc q hq => ?_⟩
    · rw [hcopy] at hc
      rw [hprot hc]
      rcases mem_cons.mp hq with rfl | hq
      · rw [BitVec.and_assoc, BitVec.and_not_self]
        exact BitVec.and_zero
      · exact hfits.protection hc q hq
    · rw [hcopy] at hc
      rcases mem_cons.mp hq with rfl | hq
      · exact hread hc
      · exact hfits.reading hc q hq

def onePage : Memobj := .proxy ⟨protRead, 0x10000, 0x1000, by decide⟩ (.pager 1)

def fourPages : Memobj := .proxy ⟨protAll, 0x10000, 0x4000, by decide⟩ (.pager 1)

def twoPages : Memobj := .proxy ⟨protRead, 0x1000, 0x2000, by decide⟩ fourPages

theorem confined_twoPages :
    memoryObjectCreateProxy true protAll [some (.pager 1)] [0] [0x10000] [0x4000] false = .ok fourPages ∧
      memoryObjectCreateProxy true protRead [some fourPages] [0] [0x1000] [0x2000] false = .ok twoPages ∧
      vmMap none none ⟨true, 0x1000, some twoPages, 0x1000, false, protAll, protAll, true⟩ =
        .ok ⟨some 1, 0x12000, 0x1000, false, protRead, protRead⟩ ∧
      Confined twoPages ⟨some 1, 0x12000, 0x1000, false, protRead, protRead⟩ := by
  have hcall : vmMap none none ⟨true, 0x1000, some twoPages, 0x1000, false, protAll, protAll, true⟩ =
      .ok ⟨some 1, 0x12000, 0x1000, false, protRead, protRead⟩ := rfl
  exact ⟨rfl, rfl, hcall,
    (vmMap_confined_iff none none _ _ _ _ rfl hcall).mpr ⟨by decide, by decide, by decide⟩⟩

def allAccess : Memobj := .proxy ⟨protAll, 0, 0x1000, by decide⟩ onePage

/-- A call can wrap, and map the page before the window; and a proxy that allows writing, made
from one that does not, lets it be written. -/
theorem escapes_onePage :
    (∃ m, vmMap none none ⟨true, 0x1000, some onePage, -0x1000, false, protRead, protRead, true⟩ = .ok m ∧
      m.offset = 0xF000 ∧ ¬ Confined onePage m) ∧
    ∃ m, vmMap none none ⟨true, 0x1000, some allAccess, 0, false, protAll, protAll, true⟩ = .ok m ∧
      m.maxProtection = protAll ∧ ¬ Confined allAccess m := by
  refine ⟨⟨⟨some 1, 0xF000, 0x1000, false, protRead, protRead⟩, rfl, rfl, fun h => ?_⟩,
    ⟨⟨some 1, 0x10000, 0x1000, false, protAll, protAll⟩, rfl, rfl, fun h => ?_⟩⟩
  · obtain ⟨x, hx⟩ := h.range 0 (by decide)
    have hbyte : 0xF000 = onePage.shift + x := Memobj.resolve_eq hx
    have hshift : onePage.shift = 0x10000 := rfl
    omega
  · exact absurd (h.protection rfl ⟨protRead, 0x10000, 0x1000, by decide⟩
      (.tail _ (.head _))) (by decide)

end Mach.Vm.MemoryObject
