import Mathlib.Algebra.Group.Nat.Defs
import Mach.Lib.Runs

/-!
# Compression of a page

`simple_compress` and `simple_decompress` of `vm/vm_compress.c`. The compressor cuts its
input into runs of at most 255 bytes. Runs of more than three bytes and runs of zeros are
written as an escape marker, the length and the byte; others are copied. Nothing tells a
byte of the input that equals the marker from the marker, and the compressor stops when
less than three bytes are left in its buffer, whether or not it has read all its input.

So the decompressor inverts the compressor for some pages and not for others. `Clean` are
pages for which it does: the compressor stops at the end of the page, or it has filled
its buffer and says so; and the decompressor meets a copied marker only where it has not
enough bytes left to take it for one.

An input or output of the source is a list here, a position in it the rest of the list
from there or the list up to there.
-/

namespace Mach.Vm.Compress

open Lib List Nat

def marker : UInt8 := 0xFF

/-- `PAGE_SIZE`. -/
def pageSize : Nat := 4096

/-! ## The compressor -/

/-- The inner loop of `simple_compress`: the bytes after the current one that equal it. -/
def countRun (current : UInt8) : List UInt8 → Nat → Nat
  | [], runLength => runLength
  | b :: rest, runLength =>
    if b = current ∧ runLength < 255 then countRun current rest (runLength + 1) else runLength

def directCopy (dstLen : Nat) (current : UInt8) : Nat → List UInt8 → List UInt8
  | 0, output => output
  | n + 1, output =>
    if output.length < dstLen then directCopy dstLen current n (output ++ [current]) else output

/-- The loop of `simple_compress`. Each turn reads at least one byte, so that the length of
the input is enough `fuel`. -/
def compressLoop (dstLen : Nat) : Nat → List UInt8 → List UInt8 → List UInt8
  | fuel + 1, current :: rest, output =>
    -- `dst_len - 2` is unsigned
    if output.length < (dstLen + 2 ^ 64 - 2) % 2 ^ 64 then
      let runLength := countRun current rest 1
      let output :=
        if runLength > 3 ∨ current = 0 then output ++ [marker, UInt8.ofNat runLength, current]
        else directCopy dstLen current runLength output
      compressLoop dstLen fuel (rest.drop (runLength - 1)) output
    else output
  | _, _, output => output

/-- `simple_compress`: the bytes of the output, as many as it returns. -/
def simpleCompress (src : List UInt8) (dstLen : Nat) : List UInt8 :=
  if dstLen < src.length / 2 then []
  else
    let output := compressLoop dstLen src.length src []
    if output.length < dstLen then output else []

/-! ## The decompressor -/

/-- The loop of `simple_decompress`, and whether it went through. -/
def decompressLoop (dstLen : Nat) : List UInt8 → List UInt8 → Bool × List UInt8
  | [], output => (true, output)
  | b :: runLength :: value :: rest, output =>
    if output.length < dstLen then
      if b = marker then
        if output.length + runLength.toNat > dstLen then (false, output)
        else decompressLoop dstLen rest (output ++ List.replicate runLength.toNat value)
      else decompressLoop dstLen (runLength :: value :: rest) (output ++ [b])
    else (true, output)
  | b :: rest, output =>
    if output.length < dstLen then decompressLoop dstLen rest (output ++ [b]) else (true, output)

/-- `simple_decompress` into a buffer with the contents `dst`. -/
def simpleDecompress (src dst : List UInt8) : Bool × List UInt8 :=
  let r := decompressLoop dst.length src []
  (r.1 && r.2.length == dst.length, r.2 ++ dst.drop r.2.length)

/-! ## The runs of a page -/

def pageRuns (bytes : List UInt8) : List (UInt8 × Nat) := runs 255 bytes

def encodeRun (r : UInt8 × Nat) : List UInt8 :=
  if r.2 > 3 ∨ r.1 = 0 then [marker, UInt8.ofNat r.2, r.1] else List.replicate r.2 r.1

def encode (rs : List (UInt8 × Nat)) : List UInt8 := rs.flatMap encodeRun

def cost (rs : List (UInt8 × Nat)) : Nat := (encode rs).length

@[simp] theorem encode_nil : encode [] = [] := rfl

@[simp] theorem encode_cons (r : UInt8 × Nat) (rs : List (UInt8 × Nat)) :
    encode (r :: rs) = encodeRun r ++ encode rs := flatMap_cons ..

@[simp] theorem cost_nil : cost [] = 0 := rfl

@[simp] theorem cost_cons (r : UInt8 × Nat) (rs : List (UInt8 × Nat)) :
    cost (r :: rs) = (encodeRun r).length + cost rs := by
  rw [cost, encode_cons, length_append, cost]

structure Clean (bytes : List UInt8) : Prop where
  whole : ∀ l r, pageRuns bytes = l ++ r → r ≠ [] → cost l ≠ pageSize - 2 ∧ cost l ≠ pageSize - 1
  marks : cost (pageRuns bytes) < pageSize → ∀ l n r, pageRuns bytes = l ++ (marker, n) :: r →
    n ≤ 3 → n + cost r ≤ 2

section Compress

variable {dstLen : Nat}

theorem le_countRun (current : UInt8) (rest : List UInt8) : ∀ n, n ≤ countRun current rest n := by
  induction rest with
  | nil => exact Nat.le_refl
  | cons b rest ih =>
    intro n
    rw [countRun]
    split
    · exact Nat.le_trans (Nat.le_succ n) (ih (n + 1))
    · exact Nat.le_refl n

theorem runsFrom_eq (current : UInt8) (rest : List UInt8) : ∀ n, runsFrom 255 current n rest =
      (current, countRun current rest n) :: pageRuns (rest.drop (countRun current rest n - n)) := by
  induction rest with
  | nil => exact fun n => by simp [runsFrom, countRun, pageRuns, runs]
  | cons b rest ih =>
    intro n
    rw [runsFrom, countRun]
    split
    · have hle := le_countRun current rest (n + 1)
      rw [ih (n + 1), show countRun current rest (n + 1) - n = countRun current rest (n + 1) - (n + 1) + 1 by omega,
        drop_succ_cons]
    · rw [Nat.sub_self]
      rfl

theorem directCopy_eq (current : UInt8) : ∀ n output, output.length + n ≤ dstLen →
      directCopy dstLen current n output = output ++ List.replicate n current
  | 0, output, _ => (append_nil output).symm
  | n + 1, output, h => by
    rw [directCopy, if_pos (by omega), directCopy_eq current n _ (by simp; omega), append_assoc]
    rfl

def taken (limit : Nat) : Nat → List (UInt8 × Nat) → List (UInt8 × Nat)
  | _, [] => []
  | outPos, r :: rs => if outPos < limit then r :: taken limit (outPos + (encodeRun r).length) rs else []

theorem compressLoop_eq (hdst : 2 ≤ dstLen) (hdst' : dstLen < 2 ^ 64) :
    ∀ fuel input output, input.length ≤ fuel → compressLoop dstLen fuel input output =
        output ++ encode (taken (dstLen - 2) output.length (pageRuns input)) := by
  have hlimit : (dstLen + 2 ^ 64 - 2) % 2 ^ 64 = dstLen - 2 := by omega
  intro fuel
  induction fuel with
  | zero =>
    intro input output h
    rw [eq_nil_of_length_eq_zero (le_zero.mp h), compressLoop]
    · exact (append_nil output).symm
    · exact nofun
  | succ fuel ih =>
    intro input output h
    cases input with
    | nil =>
      rw [compressLoop]
      · exact (append_nil output).symm
      · exact nofun
    | cons current rest =>
      have hruns : pageRuns (current :: rest) = _ := runsFrom_eq current rest 1
      rw [hruns, taken, compressLoop, hlimit]
      split
      next hroom =>
        obtain ⟨n, hn⟩ : ∃ n, countRun current rest 1 = n := ⟨_, rfl⟩
        have hwritten : (if n > 3 ∨ current = 0 then output ++ [marker, UInt8.ofNat n, current]
            else directCopy dstLen current n output) = output ++ encodeRun (current, n) := by
          unfold encodeRun
          split
          · rfl
          next hshort => exact directCopy_eq current n output (by omega)
        simp only [hn]
        rw [hwritten, ih _ _ (by simp at h ⊢; omega), encode_cons, append_assoc, length_append]
      · exact (append_nil output).symm

theorem taken_cases (limit : Nat) (rs : List (UInt8 × Nat)) :
    ∀ outPos, ∃ l r, rs = l ++ r ∧ taken limit outPos rs = l ∧ (r = [] ∨ limit ≤ outPos + cost l) := by
  induction rs with
  | nil => exact fun _ => ⟨[], [], rfl, rfl, .inl rfl⟩
  | cons x rs ih =>
    intro outPos
    rw [taken]
    split
    next h =>
      obtain ⟨l, r, hrs, htaken, hstop⟩ := ih (outPos + (encodeRun x).length)
      refine ⟨x :: l, r, congrArg (x :: ·) hrs, by rw [htaken], hstop.imp_right fun hle => ?_⟩
      rw [cost_cons]
      omega
    next h => exact ⟨[], x :: rs, rfl, rfl, .inr (by rw [cost_nil]; omega)⟩

theorem cost_append (l r : List (UInt8 × Nat)) : cost (l ++ r) = cost l + cost r := by
  rw [cost, encode, flatMap_append, length_append]
  rfl

theorem Clean.compress {bytes : List UInt8} (h : Clean bytes) (hsize : bytes.length = pageSize) :
    simpleCompress bytes pageSize =
      if cost (pageRuns bytes) < pageSize then encode (pageRuns bytes) else [] := by
  obtain ⟨l, r, hrs, htaken, hstop⟩ := taken_cases (pageSize - 2) (pageRuns bytes) 0
  have hloop : compressLoop pageSize bytes.length bytes [] = encode l := by
    rw [@compressLoop_eq pageSize (by decide) (by decide) _ _ _ (Nat.le_refl _), ← htaken]
    rfl
  rw [simpleCompress, if_neg (by rw [hsize]; decide)]
  simp only [hloop]
  by_cases hr : r = []
  · subst hr
    rw [append_nil] at hrs
    rw [hrs]
    rfl
  · obtain ⟨h2, h1⟩ := h.whole l r hrs hr
    have hle := hstop.resolve_left hr
    have hfull : pageSize ≤ cost l := by
      omega
    have hcost : cost (pageRuns bytes) = cost l + cost r := by rw [hrs, cost_append]
    rw [← cost, if_neg (Nat.not_lt.mpr hfull), if_neg (by omega)]

end Compress

section

variable {dstLen : Nat}

theorem decompressLoop_copy (b : UInt8) (rest output : List UInt8) (h : output.length < dstLen)
    (hb : b = marker → rest.length ≤ 1) :
    decompressLoop dstLen (b :: rest) output = decompressLoop dstLen rest (output ++ [b]) := by
  match rest with
  | [] | [_] => simp only [decompressLoop, if_pos h]
  | n :: value :: rest =>
    have hne : b ≠ marker := fun hmarker => by
      have := hb hmarker
      simp at this
    rw [decompressLoop, if_pos h, if_neg hne]

theorem decompressLoop_copies (b : UInt8) (rest : List UInt8) :
    ∀ n output, output.length + n ≤ dstLen → (b = marker → n + rest.length ≤ 2) →
      decompressLoop dstLen (List.replicate n b ++ rest) output =
        decompressLoop dstLen rest (output ++ List.replicate n b)
  | 0, output, _, _ => by simp
  | n + 1, output, h, hb => by
    rw [replicate_succ, cons_append, decompressLoop_copy b _ output (by omega) fun hm => by
        have := hb hm
        simp
        omega,
      decompressLoop_copies b rest n _ (by simp; omega) fun hm => by
        have := hb hm
        omega]
    simp

theorem decompressLoop_encode (rs : List (UInt8 × Nat)) (hrs : ∀ r ∈ rs, 0 < r.2 ∧ r.2 ≤ 255)
    (hmarks : ∀ l n r, rs = l ++ (marker, n) :: r → n ≤ 3 → n + cost r ≤ 2) :
    ∀ output, output.length + (expand rs).length ≤ dstLen →
      decompressLoop dstLen (encode rs) output = (true, output ++ expand rs) := by
  induction rs with
  | nil =>
    intro output _
    rw [encode_nil, decompressLoop, expand_nil, append_nil]
  | cons r rs ih =>
    intro output hroom
    obtain ⟨b, n⟩ := r
    obtain ⟨h0, hn⟩ := hrs (b, n) mem_cons_self
    have ih := ih (forall_mem_cons.mp hrs).2
      fun l n r heq => hmarks ((b, _) :: l) n r (by rw [heq]; rfl)
    rw [expand_cons, length_append, length_replicate] at hroom
    have hlen : (output ++ List.replicate n b).length + (expand rs).length ≤ dstLen := by
      simp only [length_append, length_replicate]
      omega
    rw [encode_cons, encodeRun, expand_cons, ← append_assoc output]
    split
    next hlong =>
      have hbyte : (UInt8.ofNat n).toNat = n := by
        rw [UInt8.toNat_ofNat', mod_eq_of_lt (by omega)]
      show decompressLoop dstLen (marker :: UInt8.ofNat n :: b :: encode rs) output = _
      rw [decompressLoop, if_pos (by omega), if_pos rfl, hbyte, if_neg (by omega)]
      exact ih _ hlen
    next hshort =>
      rw [decompressLoop_copies b _ n output (by omega)]
      · exact ih _ hlen
      · rintro rfl
        exact hmarks [] n rs rfl (by omega)

theorem decompressLoop_length (src : List UInt8) :
    ∀ output, output.length ≤ dstLen → (decompressLoop dstLen src output).2.length ≤ dstLen := by
  intro output
  fun_induction decompressLoop dstLen src output with
  | case1 | case2 | case5 | case7 => exact fun h => h
  | case3 _ _ _ _ _ _ ih | case4 _ _ _ _ _ _ _ ih | case6 _ _ _ _ _ ih =>
    exact fun _ => ih (by simp; omega)

theorem Clean.roundtrip {bytes dst : List UInt8} (h : Clean bytes) (hsize : bytes.length = pageSize)
    (hdst : dst.length = pageSize) (hc : simpleCompress bytes pageSize ≠ []) :
    simpleDecompress (simpleCompress bytes pageSize) dst = (true, bytes) := by
  rw [h.compress hsize] at hc ⊢
  split at hc
  next hcost =>
    have hexpand : expand (pageRuns bytes) = bytes := expand_runs 255 bytes
    have hloop := @decompressLoop_encode pageSize (pageRuns bytes)
      (fun r hr => mem_runs 255 (by decide) hr) (h.marks hcost) [] (by
        rw [hexpand, hsize]
        exact (Nat.le_refl _))
    rw [if_pos hcost, simpleDecompress, hdst, hloop, hexpand]
    simp [hsize, hdst]
  · exact absurd rfl hc

end

theorem taken_le (limit : Nat) (rs : List (UInt8 × Nat)) :
    ∀ outPos ≤ limit + 2, outPos + cost (taken limit outPos rs) ≤ limit + 2 := by
  induction rs with
  | nil => exact fun _ h => h
  | cons r rs ih =>
    intro outPos h
    rw [taken]
    split
    next hlt =>
      have hrun : (encodeRun r).length ≤ 3 := by
        unfold encodeRun
        split
        · exact Nat.le_refl 3
        next hn =>
          rw [length_replicate]
          omega
      have hrest := ih (outPos + (encodeRun r).length) (by omega)
      rw [← singleton_append, cost_append]
      simp only [cost, encode, flatMap_singleton] at hrest ⊢
      omega
    next => exact h

/-- **No buffer is overrun.** Whatever is to be compressed, into whatever buffer of two bytes or
more, and whatever bytes are to be decompressed: what is written ends within the buffer. -/
theorem output_fits (src : List UInt8) {dstLen : Nat} (h : 2 ≤ dstLen) (h64 : dstLen < 2 ^ 64) :
    (compressLoop dstLen src.length src []).length ≤ dstLen ∧
      (decompressLoop dstLen src []).2.length ≤ dstLen := by
  refine ⟨?_, decompressLoop_length src [] (Nat.zero_le _)⟩
  have hle := taken_le (dstLen - 2) (pageRuns src) 0 (by omega)
  rw [compressLoop_eq h h64 _ _ _ (Nat.le_refl _), nil_append]
  show cost (taken (dstLen - 2) 0 (pageRuns src)) ≤ dstLen
  omega

/-- Two runs and two single bytes of which six fit, and a run of 200 bytes. -/
theorem output_fits_six :
    (compressLoop 6 10 [1, 1, 1, 1, 2, 3, 4, 4, 4, 4] []).length ≤ 6 ∧
      (decompressLoop 6 [marker, 200, 7] []).2.length ≤ 6 :=
  ⟨(output_fits [1, 1, 1, 1, 2, 3, 4, 4, 4, 4] (by decide) (by decide)).1,
    (output_fits [marker, 200, 7] (by decide) (by decide)).2⟩

end Mach.Vm.Compress
