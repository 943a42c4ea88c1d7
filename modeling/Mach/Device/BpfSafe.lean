import Mach.Device.Bpf

/-!
# Validated filters and their runs

`bpf_validate` looks at every instruction that is not a key (`validate_checked`), but not
at everything that a run relies on: a jump may go backwards, the two instructions that
move `X` to or from `mem` may have any index, and any opcode will do. `Plain` says what is
left. A run is safe if and only if the instructions it meets are plain
(`validated_safe_iff`). `Flow` collects the instructions that the jumps of a program can
lead to at all; when these are plain, every run is safe (`safe_of_sound`).
-/

namespace Mach.Device.Bpf

open List

variable {f : Code} {env : Env} {s : State} {i n : Nat}

/-! ## What the validation has seen -/

theorem decode_code {c : BitVec 16} {op : Op} (h : decode c = some op) : op.code = c := by
  have := List.find?_some h
  simpa using this

structure Checked (f : Code) (i : Nat) : Prop where
  ok : insnOk i f.len (f.insn i) = true
  keys : (f.insn i).code = Op.retMatchImm.code → (f.insn i).jt.toNat ≤ nNetHashKeys

theorem validateLoop_checked :
    ∀ (n i : Nat) (found : Option Nat), f.len ≤ i + n → (validateLoop f n i found).isSome →
      ∀ j, i ≤ j → j < f.len → Checked f j ∨ (f.insn j).code = keyCode := by
  intro n
  induction n with
  | zero =>
    intro i found hn _ j hij hj
    omega
  | succ n ih =>
    intro i found hn h j hij hj
    rw [validateLoop] at h
    split at h
    next hi =>
      simp only at h
      split at h
      · cases h
      rename_i hok
      rw [Bool.not_eq_true, Bool.not_eq_false] at hok
      split at h
      next hmatch =>
        split at h
        · cases h
        rename_i hfew
        split at h
        · cases h
        rename_i hlast
        split at h
        · cases h
        rename_i hkeys
        -- the match instruction, one of its keys, or something after them
        rcases Nat.lt_trichotomy j i with hlt | rfl | hlt
        · omega
        · exact .inl ⟨hok, fun _ => by omega⟩
        · by_cases hkey : j < i + 1 + (f.insn i).jt.toNat
          · right
            by_contra hne
            refine hkeys ⟨j - (i + 1), by omega, ?_⟩
            rwa [show i + 1 + (j - (i + 1)) = j by omega]
          · exact ih _ _ (by omega) h j (by omega) hj
      next hmatch =>
        rcases Nat.eq_or_lt_of_le hij with rfl | hlt
        · exact .inl ⟨hok, fun hc => absurd hc hmatch⟩
        · exact ih _ _ (by omega) h j hlt hj
    next hi => omega

theorem validate_checked (h : bpfValidate f ≠ 0) :
    (∀ j, 1 ≤ j → j < f.len → Checked f j ∨ (f.insn j).code = keyCode) ∧
      cls (f.insn ((f.len : Int) - 1)).code = 0x06 := by
  unfold bpfValidate at h
  split at h
  · exact absurd rfl h
  next found hloop =>
    split at h
    next hret =>
      exact ⟨validateLoop_checked f.len 1 none (by omega) (by rw [hloop]; rfl), hret⟩
    · exact absurd rfl h

/-! ## What a run relies on -/

/-- What a run relies on at an instruction and the validation does not look at. -/
def Plain (f : Code) (pc : Int) : Prop :=
  match decode (f.insn pc).code with
  | none => False
  | some .ja => 0 ≤ (f.insn pc).k.toInt ∧ pc + 1 + (f.insn pc).k.toInt < f.len
  | some .ldxMem | some .stx => 0 ≤ (f.insn pc).k.toInt ∧ (f.insn pc).k.toInt < memWords
  | some _ => True

/-- `j` is the instruction after `i`, or one that `i` can jump to. -/
def Leads (f : Code) (i j : Nat) : Prop :=
  match decode (f.insn i).code with
  | none | some .retK | some .retA | some .retMatchImm => False
  | some .ja => (j : Int) = i + 1 + (f.insn i).k.toInt
  | some (.jump _ _) => j = i + 1 + (f.insn i).jt.toNat ∨ j = i + 1 + (f.insn i).jf.toNat
  | some _ => j = i + 1

/-- What the validation is there for: a run ends at a return instruction, without a fault,
and goes forward through the program until then. -/
structure Safe (f : Code) (env : Env) (mem : Nat → BitVec 32) : Prop where
  returns : ∃ count ent, bpfDoFilter f env mem f.len = .returned count ent
  forward : (visited f env f.len (start mem)).Pairwise (· < ·)
  inside : ∀ pc ∈ visited f env f.len (start mem), 1 ≤ pc ∧ pc < f.len

/-! ## One instruction -/

def StepOk (f : Code) (i : Nat) : Next → Prop
  | .go s' => ∃ j : Nat, i < j ∧ j < f.len ∧ Leads f i j ∧ s'.pc + 1 = j
  | .ret _ _ => True
  | .fault _ => False

theorem insnOk_iff {len : Nat} {p : Insn} : insnOk i len p = true ↔
    ¬ (cls p.code = 0x05 ∧ opField p.code = 0x00 ∧ (BitVec.ofNat 32 (i + 1) + p.k).toInt ≥ len) ∧
    ¬ (cls p.code = 0x05 ∧ opField p.code ≠ 0x00 ∧
      (i + 1 + p.jt.toNat ≥ len ∨ i + 1 + p.jf.toNat ≥ len)) ∧
    ¬ ((cls p.code = 0x02 ∨ (cls p.code = 0x00 ∧ p.code &&& 0xe0 = 0x60)) ∧
      (p.k.toInt ≥ memWords ∨ p.k.toInt < 0)) ∧
    ¬ (p.code = (Op.alu .div .k).code ∧ p.k = 0) := by
  unfold insnOk
  simp only
  split
  next h => exact iff_of_false Bool.false_ne_true fun hn => hn.1 h
  next h1 =>
    split
    next h => exact iff_of_false Bool.false_ne_true fun hn => hn.2.1 h
    next h2 =>
      split
      next h => exact iff_of_false Bool.false_ne_true fun hn => hn.2.2.1 h
      next h3 =>
        split
        next h => exact iff_of_false Bool.false_ne_true fun hn => hn.2.2.2 h
        next h4 => exact iff_of_true rfl ⟨h1, h2, h3, h4⟩

theorem withMem_ok {k : BitVec 32} (h : 0 ≤ k.toInt ∧ k.toInt < memWords) (g : Nat → Next) :
    withMem k g = g k.toNat := if_pos h

theorem load_ok {size : Size} {k : BitVec 32} (h : ∀ v, StepOk f i (.go { s with a := v })) :
    StepOk f i (load env s size k) := by
  unfold load
  split
  · trivial
  · exact h _

theorem retOwn_ok {count : BitVec 32} : StepOk f i (retOwn env s count) := by
  unfold retOwn
  split <;> trivial

theorem step_ok (env : Env) (hseen : Checked f i) (hplain : Plain f i) (hi : i < f.len)
    (hlast : cls (f.insn ((f.len : Int) - 1)).code = 0x06) (hpc : s.pc = i) :
    StepOk f i (step f env s) := by
  obtain ⟨-, hjump, hmem, hdiv⟩ := insnOk_iff.mp hseen.ok
  have hkeys := hseen.keys
  unfold step
  unfold Plain at hplain
  rw [hpc]
  cases hd : decode (f.insn i).code with
  | none => rw [hd] at hplain; exact hplain.elim
  | some op =>
    rw [hd] at hplain
    have hcode := decode_code hd
    -- the last instruction of the program is a return
    have hnext : cls op.code ≠ 0x06 → i + 1 < f.len := by
      intro hne
      by_contra hge
      apply hne
      rw [show ((f.len : Int) - 1) = i by omega] at hlast
      rw [hcode]
      exact hlast
    -- where an instruction only changes registers the next one follows
    have hfall : ∀ s' : State, s'.pc = i → cls op.code ≠ 0x06 →
        (Leads f i (i + 1)) → StepOk f i (.go s') := by
      intro s' hs' hne hleads
      exact ⟨i + 1, Nat.lt_succ_self i, hnext hne, hleads, by rw [hs']; rfl⟩
    rw [← hcode] at hjump hmem hdiv hkeys
    -- only these indices of `mem` are looked at
    have hindex : (cls op.code = 0x02 ∨ (cls op.code = 0x00 ∧ op.code &&& 0xe0 = 0x60)) →
        0 ≤ (f.insn i).k.toInt ∧ (f.insn i).k.toInt < memWords := by
      intro hop
      by_contra hk
      exact hmem ⟨hop, by omega⟩
    cases op with
    | retK | retA => exact retOwn_ok
    | retMatchImm =>
      have hfew := hkeys rfl
      simp only [exec]
      split
      · trivial
      · rw [if_neg (by unfold nNetHashKeys at hfew; unfold memWords; omega)]
        split <;> trivial
    | ldAbs size | ldInd size =>
      refine load_ok fun v => hfall _ hpc ?_ ?_
      · cases size <;> decide
      · simp only [Leads, hd]
    | ldxMsh =>
      simp only [exec]
      split
      · trivial
      · exact hfall _ hpc (by decide) (by simp only [Leads, hd])
    | ldMem | st =>
      simp only [exec]
      rw [withMem_ok (hindex (by decide))]
      exact hfall _ hpc (by decide) (by simp only [Leads, hd])
    | ldxMem | stx =>
      simp only [exec]
      rw [withMem_ok hplain]
      exact hfall _ hpc (by decide) (by simp only [Leads, hd])
    | ja =>
      obtain ⟨hk, hlen⟩ := hplain
      refine ⟨(i + 1 + (f.insn i).k.toInt).toNat, by omega, by omega, ?_, ?_⟩
      · simp only [Leads, hd]
        omega
      · simp only [hpc]
        omega
    | jump t src =>
      have htargets : i + 1 + (f.insn i).jt.toNat < f.len ∧ i + 1 + (f.insn i).jf.toNat < f.len := by
        by_contra hout
        refine hjump ⟨?_, ?_, by omega⟩
        · cases t <;> cases src <;> decide
        · cases t <;> cases src <;> decide
      simp only [exec]
      split
      · refine ⟨i + 1 + (f.insn i).jt.toNat, by omega, htargets.1, ?_, ?_⟩
        · simp only [Leads, hd]
          exact .inl trivial
        · simp only [hpc]
          omega
      · refine ⟨i + 1 + (f.insn i).jf.toNat, by omega, htargets.2, ?_, ?_⟩
        · simp only [Leads, hd]
          exact .inr trivial
        · simp only [hpc]
          omega
    | alu a src =>
      simp only [exec]
      split
      next hzero =>
        obtain ⟨rfl, hv⟩ := hzero
        cases src with
        | x => trivial
        | k => exact hdiv ⟨rfl, hv⟩
      next =>
        refine hfall _ hpc ?_ ?_
        · cases a <;> cases src <;> decide
        · simp only [Leads, hd]
    | ldLen | ldxLen | ldImm | ldxImm | neg | tax | txa =>
      exact hfall _ hpc (by decide) (by simp only [Leads, hd])

/-! ## Runs -/

theorem bytes_of_lt {pc : Int} (h : pc < f.len) : 8 * pc < f.bytes := by
  unfold Code.len at h
  omega

theorem checked_of_plain (hseen : Checked f i ∨ (f.insn i).code = keyCode)
    (hplain : Plain f i) : Checked f i := by
  rcases hseen with h | hkey
  · exact h
  · rw [Plain, hkey] at hplain
    exact hplain.elim

theorem run_ok (hseen : ∀ j, 1 ≤ j → j < f.len → Checked f j ∨ (f.insn j).code = keyCode)
    (hlast : cls (f.insn ((f.len : Int) - 1)).code = 0x06) (env : Env) :
    ∀ (n i : Nat) (s : State), f.len ≤ i + n → 1 ≤ i → i < f.len → s.pc = i →
      (∀ pc ∈ visited f env n s, Plain f pc) →
      (∃ count ent, run f env n s = .returned count ent) ∧
      (visited f env n s).Pairwise (· < ·) ∧
      ∀ pc ∈ visited f env n s, (i : Int) ≤ pc ∧ pc < f.len := by
  intro n
  induction n with
  | zero =>
    intro i s hn _ hi _ _
    omega
  | succ n ih =>
    intro i s hn h1 hi hpc hplain
    have hbytes : 8 * s.pc < f.bytes := bytes_of_lt (by omega)
    rw [visited, if_pos hbytes] at hplain ⊢
    rw [run, if_pos hbytes]
    have hhere : Plain f i := by
      rw [← hpc]
      exact hplain s.pc mem_cons_self
    have hstep := step_ok env (checked_of_plain (hseen i h1 hi) hhere) hhere hi hlast hpc
    cases hs : step f env s with
    | fault e => rw [hs] at hstep; exact hstep.elim
    | ret count ent =>
      refine ⟨⟨count, ent, rfl⟩, pairwise_singleton _ _, fun pc hmem => ?_⟩
      rw [mem_singleton.mp hmem]
      omega
    | go s' =>
      rw [hs] at hstep hplain
      obtain ⟨j, hij, hj, -, hpc'⟩ := hstep
      obtain ⟨hret, hpairs, hin⟩ := ih j { s' with pc := s'.pc + 1 } (by omega) (by omega) hj hpc'
        (forall_mem_cons.mp hplain).2
      refine ⟨hret, pairwise_cons.mpr ⟨fun pc hmem => ?_, hpairs⟩, fun pc hmem => ?_⟩
      · have := (hin pc hmem).1
        omega
      · rcases mem_cons.mp hmem with rfl | hmem
        · omega
        · have := hin pc hmem
          omega

theorem plain_of_step (env : Env) {s : State} (hfault : ∀ e, step f env s ≠ .fault e)
    (hgo : ∀ s', step f env s = .go s' → s.pc < s'.pc + 1 ∧ s'.pc + 1 < f.len) :
    Plain f s.pc := by
  unfold step at hfault hgo
  unfold Plain
  cases hd : decode (f.insn s.pc).code with
  | none =>
    rw [hd] at hfault
    exact hfault _ rfl
  | some op =>
    rw [hd] at hfault hgo
    have hmem : ∀ g : Nat → Next, (∀ e, withMem (f.insn s.pc).k g ≠ .fault e) →
        0 ≤ (f.insn s.pc).k.toInt ∧ (f.insn s.pc).k.toInt < memWords := by
      intro g hg
      by_contra hk
      exact hg _ (if_neg hk)
    cases op with
    | ja =>
      obtain ⟨h1, h2⟩ := hgo _ rfl
      simp only at h1 h2
      constructor
      · omega
      · omega
    | ldxMem | stx =>
      simp only [exec] at hfault
      exact hmem _ hfault
    | _ => trivial

theorem plain_of_run (env : Env) :
    ∀ (n : Nat) (s : State), (∃ count ent, run f env n s = .returned count ent) →
      (visited f env n s).Pairwise (· < ·) → (∀ pc ∈ visited f env n s, pc < f.len) →
      ∀ pc ∈ visited f env n s, Plain f pc := by
  intro n
  induction n with
  | zero =>
    intro s _ _ _ pc hmem
    cases hmem
  | succ n ih =>
    intro s hret hpairs hin pc hmem
    rw [visited] at hpairs hin hmem
    rw [run] at hret
    by_cases hbytes : 8 * s.pc < f.bytes
    · rw [if_pos hbytes] at hpairs hin hmem hret
      cases hs : step f env s with
      | fault e =>
        rw [hs] at hret
        obtain ⟨count, ent, hret⟩ := hret
        cases hret
      | ret count ent =>
        rw [hs] at hmem
        rw [mem_singleton.mp hmem]
        apply plain_of_step env
        · intro e he
          rw [hs] at he
          cases he
        · intro s' hs'
          rw [hs] at hs'
          cases hs'
      | go s' =>
        rw [hs] at hpairs hin hmem hret
        obtain ⟨hless, hpairs⟩ := pairwise_cons.mp hpairs
        have hrest := (forall_mem_cons.mp hin).2
        rcases mem_cons.mp hmem with rfl | hmem
        · apply plain_of_step env
          · intro e he
            rw [hs] at he
            cases he
          · intro t ht
            rw [hs] at ht
            cases ht
            -- the run does go on, since it has not returned here
            have hnext : s'.pc + 1 ∈ visited f env n { s' with pc := s'.pc + 1 } := by
              cases n with
              | zero =>
                obtain ⟨count, ent, hret⟩ := hret
                cases hret
              | succ n =>
                rw [visited]
                simp only [run] at hret
                by_cases hb : 8 * (s'.pc + 1) < f.bytes
                · rw [if_pos hb]
                  exact mem_cons_self
                · simp only [if_neg hb] at hret
                  obtain ⟨count, ent, hret⟩ := hret
                  cases hret
            exact ⟨hless _ hnext, hrest _ hnext⟩
        · exact ih _ hret hpairs hrest pc hmem
    · rw [if_neg hbytes] at hmem
      cases hmem

theorem safe_of_plain (hvalid : bpfValidate f ≠ 0) (hlen : 1 < f.len) {mem : Nat → BitVec 32}
    (hplain : ∀ pc ∈ visited f env f.len (start mem), Plain f pc) : Safe f env mem := by
  obtain ⟨hseen, hlast⟩ := validate_checked hvalid
  obtain ⟨hret, hpairs, hin⟩ := run_ok hseen hlast env f.len 1 (start mem) (by omega)
    (Nat.le_refl 1) hlen rfl hplain
  exact ⟨hret, hpairs, hin⟩

/-- **A run of a validated filter is safe if and only if the instructions it meets are
plain**, and there is one. -/
theorem validated_safe_iff (hvalid : bpfValidate f ≠ 0) (env : Env) (mem : Nat → BitVec 32) :
    Safe f env mem ↔ 1 < f.len ∧ ∀ pc ∈ visited f env f.len (start mem), Plain f pc := by
  constructor
  · intro hsafe
    refine ⟨?_, plain_of_run env f.len (start mem) hsafe.returns hsafe.forward
      fun pc hmem => (hsafe.inside pc hmem).2⟩
    obtain ⟨count, ent, hret⟩ := hsafe.returns
    have hin := hsafe.inside
    unfold bpfDoFilter at hret
    cases hlen : f.len with
    | zero =>
      rw [hlen] at hret
      cases hret
    | succ n =>
      -- the first instruction is met, so it is inside
      rw [hlen, run] at hret
      rw [hlen, visited] at hin
      by_cases hb : 8 * (start mem).pc < f.bytes
      · rw [if_pos hb] at hin
        have := (hin _ mem_cons_self).2
        simp only [start] at this
        omega
      · rw [if_neg hb] at hret
        cases hret
  · rintro ⟨hlen, hplain⟩
    exact safe_of_plain hvalid hlen hplain

/-- A filter that keeps the length of the packet in `mem[3]` and accepts the whole packet if its
first byte is zero. -/
def acceptZero : Code :=
  ⟨fun i =>
    if i = 1 then ⟨Op.ldLen.code, 0, 0, 0⟩
    else if i = 2 then ⟨Op.st.code, 0, 0, 3⟩
    else if i = 3 then ⟨(Op.ldAbs .b).code, 0, 0, 14⟩
    else if i = 4 then ⟨(Op.jump .eq .k).code, 1, 0, 0⟩
    else if i = 5 then ⟨Op.retK.code, 0, 0, 0⟩
    else if i = 6 then ⟨Op.ldMem.code, 0, 0, 3⟩
    else ⟨Op.retA.code, 0, 0, 0⟩, 64⟩

def zeroPacket : Env := ⟨.i386, fun _ => 0, 60, fun _ => 0, 14, false, 0, fun _ => []⟩

theorem acceptZero_safe : bpfValidate acceptZero ≠ 0 ∧ (Safe acceptZero zeroPacket fun _ => 0) ∧
    bpfDoFilter acceptZero zeroPacket (fun _ => 0) 6 = .returned 60 none := by
  have hvalid : bpfValidate acceptZero ≠ 0 := by decide
  have hpath : visited acceptZero zeroPacket acceptZero.len (start fun _ => 0) = [1, 2, 3, 4, 6, 7] :=
    rfl
  refine ⟨hvalid, (validated_safe_iff hvalid zeroPacket _).mpr ⟨by decide, fun pc hmem => ?_⟩, rfl⟩
  rw [hpath] at hmem
  simp only [mem_cons, not_mem_nil, or_false] at hmem
  rcases hmem with rfl | rfl | rfl | rfl | rfl | rfl <;> trivial

def jumpBack : Code :=
  ⟨fun i => if i = 1 then ⟨Op.ja.code, 0, 0, -1⟩ else ⟨Op.retK.code, 0, 0, 1⟩, 24⟩

theorem jumpBack_running (n : Nat) :
    run jumpBack zeroPacket n (start fun _ => 0) = .running (start fun _ => 0) := by
  induction n with
  | zero => rfl
  | succ n ih =>
    have hstep : step jumpBack zeroPacket (start fun _ => 0) =
        .go { start (fun _ => 0) with pc := 0 } := rfl
    exact ih

/-- `jumpBack` is accepted, and its run never ends. -/
theorem jumpBack_validated : bpfValidate jumpBack = 1 ∧ ¬ Safe jumpBack zeroPacket (fun _ => 0) ∧
    ∀ n, bpfDoFilter jumpBack zeroPacket (fun _ => 0) n = .running (start fun _ => 0) := by
  refine ⟨by decide, fun hsafe => ?_, jumpBack_running⟩
  obtain ⟨count, ent, hret⟩ := hsafe.returns
  cases hret

/-! ## Filters without a wrong path -/

inductive Flow (f : Code) : Nat → Prop
  | first : Flow f 1
  | next {i j : Nat} : Flow f i → Leads f i j → Flow f j

/-- A program that has an instruction, and none that is not plain on a path from the first. -/
structure Sound (f : Code) : Prop where
  nonempty : 1 < f.len
  plain : ∀ i : Nat, Flow f i → Plain f i

theorem Sound.visited_plain (hsound : Sound f) (hvalid : bpfValidate f ≠ 0) (env : Env) :
    ∀ (n i : Nat) (s : State), 1 ≤ i → i < f.len → Flow f i → s.pc = i →
      ∀ pc ∈ visited f env n s, Plain f pc := by
  obtain ⟨hseen, hlast⟩ := validate_checked hvalid
  intro n
  induction n with
  | zero =>
    intro i s _ _ _ _ pc hmem
    cases hmem
  | succ n ih =>
    intro i s h1 hi hflow hpc pc hmem
    have hhere := hsound.plain i hflow
    rw [visited, if_pos (bytes_of_lt (by omega))] at hmem
    rcases mem_cons.mp hmem with rfl | hmem
    · rw [hpc]
      exact hhere
    · have hstep := step_ok env (checked_of_plain (hseen i h1 hi) hhere) hhere hi hlast hpc
      cases hs : step f env s with
      | go s' =>
        rw [hs] at hstep hmem
        obtain ⟨j, hij, hj, hleads, hpc'⟩ := hstep
        exact ih j _ (by omega) hj (hflow.next hleads) hpc' pc hmem
      | ret | fault => rw [hs] at hmem; cases hmem

/-- **A validated program without a wrong path is safe**, for every packet. -/
theorem safe_of_sound (hsound : Sound f) (hvalid : bpfValidate f ≠ 0) (env : Env)
    (mem : Nat → BitVec 32) : Safe f env mem := by
  apply safe_of_plain hvalid hsound.nonempty
  exact hsound.visited_plain hvalid env f.len 1 (start mem) (Nat.le_refl 1) hsound.nonempty
    .first rfl

theorem acceptZero_sound : bpfValidate acceptZero ≠ 0 ∧ ∀ env mem, Safe acceptZero env mem := by
  have hpath : ∀ i, Flow acceptZero i → i ∈ [1, 2, 3, 4, 5, 6, 7] := by
    intro i hflow
    induction hflow with
    | first => decide
    | next _ hleads ih =>
      simp only [mem_cons, not_mem_nil, or_false] at ih ⊢
      rcases ih with rfl | rfl | rfl | rfl | rfl | rfl | rfl
      case inr.inr.inr.inl => rcases hleads with hj | hj <;> simp [hj, acceptZero]
      case inr.inr.inr.inr.inl | inr.inr.inr.inr.inr.inr => exact False.elim hleads
      all_goals
        have := (show _ = _ from hleads)
        omega
  have hsound : Sound acceptZero := by
    refine ⟨by decide, fun i hflow => ?_⟩
    have hi := hpath i hflow
    simp only [mem_cons, not_mem_nil, or_false] at hi
    rcases hi with rfl | rfl | rfl | rfl | rfl | rfl | rfl <;> trivial
  exact ⟨by decide, fun env mem => safe_of_sound hsound (by decide) env mem⟩

end Mach.Device.Bpf
