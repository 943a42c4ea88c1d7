import Mach.Device.BpfSafe

/-!
# What a filter sees of its packet

A load at offset `k` is one of the header and the packet after it. `bpf_do_filter` takes
`NET_RCV_MAX` for the length of what is there, however long the packet is, and what is
behind it in the buffer is of earlier packets. A load that begins in the header and ends in
the packet is made in the packet, from before its first byte on, and where `size_t` has 32
bits the end of a load can wrap around. Nothing sets the words of `mem`, an array on the
stack. Without these loads and without a read of a word that was not written the verdict
depends on the packet alone (`verdict_own`).
-/

namespace Mach.Device.Bpf

variable {f : Code} {env env' : Env} {s s' : State} {n : Nat} {z : Size} {k : BitVec 32}

inductive Place
  | header (i : Int)
  | packet (i : Int)

def Place.Owned (env : Env) : Place → Prop
  | .header i => 0 ≤ i ∧ i < env.hlen.toNat
  | .packet i => 0 ≤ i ∧ i < env.wirelen.toNat

/-- The bytes that `fetch` reads, if it does. -/
def places (env : Env) (z : Size) (k : BitVec 32) : Option (Nat → Place) :=
  if z.stop env.arch k ≤ env.hlen.toNat then some fun j => .header (k.toInt + j)
  else if z.stop env.arch k ≤ netRcvMax then some fun j => .packet ((k - env.hlen).toInt + j)
  else none

def place (env : Env) (i : Nat) : Place :=
  if i < env.hlen.toNat then .header i else .packet (i - env.hlen.toNat)

/-- A load sees the bytes at its offset, and they are of the header or the packet. -/
def SeesOwn (env : Env) (z : Size) (k : BitVec 32) : Prop :=
  ∀ bytes, places env z k = some bytes → ∀ j < z.bytes,
    bytes j = place env (k.toNat + j) ∧ (bytes j).Owned env

def Op.load (p : Insn) (s : State) : Op → Option (Size × BitVec 32)
  | .ldAbs size => some (size, p.k)
  | .ldInd size => some (size, s.x + p.k)
  | .ldxMsh => some (.b, p.k)
  | _ => none

def loads (f : Code) (env : Env) : Nat → State → List (Size × BitVec 32)
  | 0, _ => []
  | n + 1, s =>
    if 8 * s.pc < f.bytes then
      ((decode (f.insn s.pc).code).bind (·.load (f.insn s.pc) s)).toList ++ match step f env s with
        | .go s' => loads f env n { s' with pc := s'.pc + 1 }
        | _ => []
    else []

/-- The same but for the bytes outside of header and packet. -/
structure Agrees (env env' : Env) : Prop where
  same : env' = { env with header := env'.header, packet := env'.packet }
  header : ∀ i, Place.Owned env (.header i) → env'.header i = env.header i
  packet : ∀ i, Place.Owned env (.packet i) → env'.packet i = env.packet i

def Outcome.Alike : Outcome → Outcome → Prop
  | .running _, .running _ => True
  | o, o' => o' = o

/-- The loads of the filter are of its own packet, and its verdict and its hash entry
depend on nothing else: neither on the rest of the buffers nor on what the stack held. -/
structure OwnVerdict (f : Code) (env : Env) (mem : Nat → BitVec 32) : Prop where
  loads : ∀ n, ∀ r ∈ loads f env n (start mem), SeesOwn env r.1 r.2
  verdict : ∀ env' mem', Agrees env env' → ∀ n,
    (bpfDoFilter f env mem n).Alike (bpfDoFilter f env' mem' n)

/-- None of the four ways in which a load goes wrong. -/
structure InPlace (env : Env) (z : Size) (k : BitVec 32) : Prop where
  exact : z.stop env.arch k = k.toNat + z.bytes
  whole : k.toNat < env.hlen.toNat → env.hlen.toNat < k.toNat + z.bytes →
    netRcvMax < k.toNat + z.bytes
  /-- It does not end behind the packet, unless `NET_RCV_MAX` refuses it. -/
  fresh : env.hlen.toNat + env.wirelen.toNat < k.toNat + z.bytes → netRcvMax < k.toNat + z.bytes
  nonneg : k.toNat + z.bytes ≤ env.hlen.toNat → 0 ≤ k.toInt

/-- The words of `mem` that a case of the switch reads. -/
def Op.reads (env : Env) (p : Insn) : Op → List Nat
  | .ldMem | .ldxMem => [p.k.toNat]
  | .retMatchImm => if p.jt.toNat = env.nKeys then List.range p.jt.toNat else []
  | _ => []

/-- The words of `mem` that it writes. -/
def Op.writes (p : Insn) : Op → List Nat
  | .st | .stx => [p.k.toNat]
  | _ => []

/-- No word of `mem` is read in these turns that was not written before. -/
def readsWritten (f : Code) (env : Env) : Nat → State → List Nat → Bool
  | 0, _, _ => true
  | n + 1, s, known =>
    if 8 * s.pc < f.bytes then
      match decode (f.insn s.pc).code with
      | none => true
      | some op =>
        (op.reads env (f.insn s.pc)).all known.contains && match step f env s with
          | .go s' =>
            readsWritten f env n { s' with pc := s'.pc + 1 } (op.writes (f.insn s.pc) ++ known)
          | _ => true
    else true

theorem toInt_of_nonneg (h : 0 ≤ k.toInt) : k.toInt = k.toNat := by
  rw [BitVec.toInt_eq_toNat_cond] at h ⊢
  split at h <;> omega

theorem toInt_sub_hlen (hle : env.hlen.toNat ≤ k.toNat) (hk : k.toNat ≤ netRcvMax) :
    (k - env.hlen).toInt = (k.toNat : Int) - env.hlen.toNat := by
  have hsub : (k - env.hlen).toNat = k.toNat - env.hlen.toNat := BitVec.toNat_sub_of_le hle
  unfold netRcvMax at hk
  rw [BitVec.toInt_eq_toNat_cond]
  omega

theorem Size.bytes_pos (z : Size) : 0 < z.bytes := by
  cases z <;> decide

theorem stop_wraps (arch : Arch) (h : z.stop arch k ≠ k.toNat + z.bytes) :
    z.stop arch k < 4 ∧ 4294967292 ≤ k.toNat := by
  have hk := k.isLt
  cases z <;> cases arch <;> simp only [Size.stop, Size.bytes, Arch.sizes] at h ⊢ <;> omega

theorem not_seesOwn_of_wraps (h : z.stop env.arch k ≠ k.toNat + z.bytes) : ¬ SeesOwn env z k := by
  obtain ⟨hstop, hlast⟩ := stop_wraps env.arch h
  have hk := k.isLt
  have hz := z.bytes_pos
  intro hown
  unfold SeesOwn places at hown
  split at hown
  next =>
    have hfirst := (hown _ rfl 0 hz).2.1
    have := BitVec.toInt_eq_toNat_cond k
    omega
  next hhead =>
    -- the header is shorter than a word, so the offset in the packet is negative too
    rw [if_pos (by unfold netRcvMax; omega)] at hown
    have hfirst := (hown _ rfl 0 hz).2.1
    have hle : env.hlen.toNat ≤ k.toNat := by omega
    have hsub : (k - env.hlen).toNat = k.toNat - env.hlen.toNat := BitVec.toNat_sub_of_le hle
    have := BitVec.toInt_eq_toNat_cond (k - env.hlen)
    omega

theorem seesOwn_iff : SeesOwn env z k ↔ InPlace env z k := by
  have hz := z.bytes_pos
  by_cases hexact : z.stop env.arch k = k.toNat + z.bytes
  case neg => exact iff_of_false (not_seesOwn_of_wraps hexact) fun h => hexact h.exact
  unfold SeesOwn places
  rw [hexact]
  split
  next hhead =>
    constructor
    · intro h
      have := (h _ rfl 0 hz).2.1
      exact ⟨hexact, by omega, by omega, fun _ => by omega⟩
    · rintro hin _ ⟨⟩ j hj
      have hk := toInt_of_nonneg (hin.nonneg hhead)
      rw [place, if_pos (by omega), hk]
      exact ⟨rfl, by omega, by omega⟩
  next hhead =>
    split
    next hmax =>
      constructor
      · intro h
        obtain ⟨hfirst, -⟩ := h _ rfl 0 hz
        have hle : env.hlen.toNat ≤ k.toNat := by
          by_contra hlt
          rw [place, if_pos (by omega)] at hfirst
          cases hfirst
        have hlast := (h _ rfl (z.bytes - 1) (by omega)).2.2
        rw [toInt_sub_hlen hle (by omega)] at hlast
        exact ⟨hexact, by omega, by omega, by omega⟩
      · rintro hin _ ⟨⟩ j hj
        have hle : env.hlen.toNat ≤ k.toNat := by
          by_contra hlt
          have := hin.whole (by omega) (by omega)
          omega
        have hfresh : k.toNat + z.bytes ≤ env.hlen.toNat + env.wirelen.toNat := by
          by_contra hlt
          have := hin.fresh (by omega)
          omega
        rw [toInt_sub_hlen hle (by omega), place, if_neg (by omega)]
        exact ⟨congrArg Place.packet (by omega), by omega, by omega⟩
    next hmax => exact iff_of_true nofun ⟨hexact, by omega, by omega, by omega⟩

/-! ## Two runs -/

theorem readData_congr {d d' : Int → BitVec 8} {i : Int} (h : ∀ j < z.bytes, d' (i + j) = d (i + j)) :
    readData z d' i = readData z d i := by
  have h0 : ∀ hz : 0 < z.bytes, d' i = d i := by simpa using h 0
  cases z with
  | w =>
    have h1 : d' (i + 1) = d (i + 1) := h 1 (by decide)
    have h2 : d' (i + 2) = d (i + 2) := h 2 (by decide)
    have h3 : d' (i + 3) = d (i + 3) := h 3 (by decide)
    simp only [readData, h0 (by decide), h1, h2, h3]
  | h =>
    have h1 : d' (i + 1) = d (i + 1) := h 1 (by decide)
    simp only [readData, h0 (by decide), h1]
  | b => simp only [readData, h0 (by decide)]

/-- The same but for words of `mem` that were not written. -/
structure State.Alike (known : List Nat) (s s' : State) : Prop where
  regs : s' = { s with mem := s'.mem }
  mem : ∀ i ∈ known, s'.mem i = s.mem i

def Next.Alike (known : List Nat) : Next → Next → Prop
  | .go s, .go s' => s.Alike known s'
  | o, o' => o' = o

theorem bpfMatch_congr {keys keys' : Nat → BitVec 32} (h : ∀ i < n, keys' i = keys i) :
    bpfMatch env n keys' = bpfMatch env n keys := by
  have hrange : ∀ i ∈ List.range n, keys' i = keys i := fun i hi => h i (List.mem_range.mp hi)
  have hhash : bpfHash n keys' = bpfHash n keys := by
    unfold bpfHash
    rw [List.foldl_ext _ _ _ fun hval i hi => by rw [hrange i hi]]
  unfold bpfMatch
  rw [hhash]
  congr 1
  funext e
  rw [Bool.eq_iff_iff, List.all_eq_true, List.all_eq_true]
  exact forall₂_congr fun i hi => by rw [hrange i hi]

section

variable (h : Agrees env env')
include h

theorem fetch_congr (hin : InPlace env z k) : fetch env' z k = fetch env z k := by
  have hown := seesOwn_iff.mpr hin
  unfold SeesOwn places at hown
  unfold fetch
  rw [h.same]
  split
  next hhead =>
    rw [if_pos hhead] at hown
    rw [readData_congr fun j hj => h.header _ (hown _ rfl j hj).2]
  next hhead =>
    rw [if_neg hhead] at hown
    split
    next hmax =>
      rw [if_pos hmax] at hown
      rw [readData_congr fun j hj => h.packet _ (hown _ rfl j hj).2]
    next => rfl

theorem exec_alike {op : Op} {p : Insn} {known : List Nat} (hs : s.Alike known s')
    (hin : ∀ r ∈ op.load p s, InPlace env r.1 r.2) (hreads : op.reads env p ⊆ known) :
    (exec env p s op).Alike (op.writes p ++ known) (exec env' p s' op) := by
  obtain ⟨hregs, hmem⟩ := hs
  -- a case that leaves `mem` alone
  have hkeep : ∀ t t' : State, t.mem = s.mem → t'.mem = s'.mem → t' = { t with mem := t'.mem } →
      t.Alike known t' := fun t t' h1 h2 h3 => ⟨h3, by rw [h1, h2]; exact hmem⟩
  cases op with
  | ldAbs z | ldInd z =>
    rw [hregs]
    simp only [exec, load, fetch_congr h (hin (z, _) rfl)]
    cases fetch env z _ with
    | none => rfl
    | some v => exact hkeep _ _ rfl rfl rfl
  | ldxMsh =>
    rw [hregs]
    simp only [exec, fetch_congr h (hin (.b, _) rfl)]
    cases fetch env .b p.k with
    | none => rfl
    | some v => exact hkeep _ _ rfl rfl rfl
  | retK | retA =>
    rw [hregs, h.same]
    simp only [exec, retOwn]
    split <;> rfl
  | retMatchImm =>
    rw [hregs, h.same]
    simp only [exec]
    split
    · rfl
    next hkeys =>
      rw [Op.reads, if_pos (not_not.mp hkeys)] at hreads
      split
      · rfl
      · have hmatch : bpfMatch { env with packet := env'.packet, header := env'.header } p.jt.toNat s'.mem =
            bpfMatch env p.jt.toNat s.mem :=
          bpfMatch_congr fun i hi => hmem i (hreads (List.mem_range.mpr hi))
        rw [hmatch]
        cases bpfMatch env p.jt.toNat s.mem <;> rfl
  | ldMem | ldxMem =>
    have hword := hmem p.k.toNat (hreads List.mem_cons_self)
    rw [hregs]
    simp only [exec, withMem]
    split
    · rw [hword]
      exact hkeep _ _ rfl rfl rfl
    · rfl
  | st | stx =>
    rw [hregs]
    simp only [exec, withMem]
    split
    · refine ⟨rfl, fun i hi => ?_⟩
      simp only [Function.update_apply]
      split
      · rfl
      next hne => exact hmem i ((List.mem_cons.mp hi).resolve_left hne)
    · rfl
  | alu a src =>
    have hv : src.eval s' p = src.eval s p := by
      rw [hregs]
      cases src <;> rfl
    simp only [exec, hv]
    rw [hregs]
    by_cases hzero : a = .div ∧ src.eval s p = 0
    · simp only [if_pos hzero]
      cases src <;> rfl
    · simp only [if_neg hzero]
      exact hkeep _ _ rfl rfl rfl
  | jump t src =>
    rw [hregs]
    cases src <;> exact hkeep _ _ rfl rfl rfl
  | ldLen | ldxLen =>
    rw [hregs, h.same]
    exact hkeep _ _ rfl rfl rfl
  | ldImm | ldxImm | ja | neg | tax | txa =>
    rw [hregs]
    exact hkeep _ _ rfl rfl rfl

theorem run_alike : ∀ n s s' known, s.Alike known s' → (∀ r ∈ loads f env n s, InPlace env r.1 r.2) →
    readsWritten f env n s known = true → (run f env n s).Alike (run f env' n s') := by
  intro n
  induction n with
  | zero => exact fun _ _ _ _ _ _ => trivial
  | succ n ih =>
    intro s s' known hs hin hreads
    have hpc : s'.pc = s.pc := by rw [hs.regs]
    rw [run, run, hpc]
    rw [loads] at hin
    rw [readsWritten] at hreads
    split
    next hin' =>
      rw [if_pos hin'] at hin hreads
      simp only [step, hpc] at hin hreads ⊢
      cases hd : decode (f.insn s.pc).code with
      | none => rfl
      | some op =>
        simp only [hd, Bool.and_eq_true, List.all_eq_true, List.contains_iff_mem] at hin hreads ⊢
        have hstep := exec_alike h hs
          (fun r hr => hin r (List.mem_append_left _ (Option.mem_toList.mpr hr))) hreads.1
        cases he : exec env (f.insn s.pc) s op <;> cases he' : exec env' (f.insn s.pc) s' op <;>
          rw [he, he'] at hstep
        case go.go t t' =>
          simp only [he] at hin hreads
          refine ih _ _ _ ⟨?_, hstep.mem⟩ (fun r hr => hin r (List.mem_append_right _ hr)) hreads.2
          rw [hstep.regs]
        all_goals cases hstep
        all_goals rfl
    next => rfl

end

theorem turns_of_ended : ∀ m s known, (∀ t, run f env m s ≠ .running t) → ∀ n,
    loads f env n s ⊆ loads f env m s ∧
      (readsWritten f env m s known = true → readsWritten f env n s known = true) := by
  intro m
  induction m with
  | zero => exact fun s _ hend => absurd rfl (hend s)
  | succ m ih =>
    intro s known hend n
    cases n with
    | zero => exact ⟨List.nil_subset _, fun _ => rfl⟩
    | succ n =>
      rw [run] at hend
      rw [loads, loads, readsWritten, readsWritten]
      split at hend
      next hpc =>
        simp only [if_pos hpc]
        cases hs : step f env s with
        | ret | fault => exact ⟨List.Subset.refl _, id⟩
        | go s' =>
          rw [hs] at hend
          have hsub := (ih _ known hend n).1
          refine ⟨List.append_subset.mpr ⟨List.subset_append_left _ _,
            List.Subset.trans hsub (List.subset_append_right _ _)⟩, ?_⟩
          cases decode (f.insn s.pc).code with
          | none => exact id
          | some op =>
            simp only [Bool.and_eq_true]
            exact And.imp_right (ih _ _ hend n).2
      next hpc =>
        simp only [if_neg hpc]
        exact ⟨List.Subset.refl _, id⟩

def behindPacket : Code :=
  ⟨fun i => if i = 1 then ⟨(Op.ldAbs .b).code, 0, 0, 74⟩ else ⟨Op.retA.code, 0, 0, 0⟩, 24⟩

/-- A filter that returns a word of `mem` that it has not written. -/
def unwritten : Code :=
  ⟨fun i => if i = 1 then ⟨Op.ldMem.code, 0, 0, 0⟩ else ⟨Op.retA.code, 0, 0, 0⟩, 24⟩

end Mach.Device.Bpf
