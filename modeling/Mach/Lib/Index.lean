import Mathlib.Data.List.Nodup

/-!
# Buckets of an index

An index files the entries `ι` of a store in buckets: `key i` names the bucket of the entry
`i`, or is `none` for an entry that is not filed. `Files buckets key` says that the buckets
hold just the entries with a key, each of them once and in its own bucket.

An entry is filed at the end of its bucket and taken out of the middle of it; the rules say
how the key of that one entry changes. A store with several indexes has one `Files` for each.
-/

namespace Mach.Lib.Index

open Function List

variable {ι κ : Type}

structure Files (buckets : κ → List ι) (key : ι → Option κ) : Prop where
  nodup : ∀ b, (buckets b).Nodup
  mem : ∀ b i, i ∈ buckets b ↔ key i = some b

variable {buckets : κ → List ι} {key key' : ι → Option κ} {b : κ} {i : ι}

theorem files_empty : Files (fun _ : κ => ([] : List ι)) fun _ => none := by
  refine ⟨fun _ => nodup_nil, fun b i => ?_⟩
  simp

theorem Files.congr (h : Files buckets key) (hk : ∀ j, key' j = key j) : Files buckets key' :=
  ⟨h.nodup, fun b j => by rw [hk j, h.mem]⟩

variable [DecidableEq κ]

/-- The entry `i` is put at the end of the bucket `b`. -/
def enter (buckets : κ → List ι) (b : κ) (i : ι) : κ → List ι :=
  update buckets b (buckets b ++ [i])

variable [DecidableEq ι]

/-- The entry `i` is taken out of the bucket `b`. -/
def remove (buckets : κ → List ι) (b : κ) (i : ι) : κ → List ι :=
  update buckets b ((buckets b).erase i)

theorem Files.enter (h : Files buckets key) (hi : key i = none) (hb : key' i = some b)
    (hother : ∀ j, j ≠ i → key' j = key j) : Files (enter buckets b i) key' := by
  have hnot : i ∉ buckets b := by
    intro hmem
    rw [h.mem, hi] at hmem
    cases hmem
  constructor
  · intro c
    by_cases hc : c = b
    · subst hc
      rw [Index.enter, update_self, nodup_append]
      refine ⟨h.nodup c, nodup_singleton i, ?_⟩
      intro x hx y hy hxy
      rw [mem_singleton] at hy
      exact hnot (hy ▸ hxy ▸ hx)
    · rw [Index.enter, update_of_ne hc]
      exact h.nodup c
  · intro c j
    by_cases hj : j = i
    · subst hj
      rw [hb, Index.enter]
      by_cases hc : c = b
      · subst hc
        simp
      · have hnot : j ∉ buckets c := by
          intro hmem
          rw [h.mem, hi] at hmem
          cases hmem
        rw [update_of_ne hc]
        simp [hnot, Ne.symm hc]
    · rw [hother j hj, ← h.mem c j, Index.enter]
      by_cases hc : c = b
      · subst hc
        simp [hj]
      · rw [update_of_ne hc]

theorem Files.remove (h : Files buckets key) (hi : key i = some b) (hb : key' i = none)
    (hother : ∀ j, j ≠ i → key' j = key j) : Files (remove buckets b i) key' := by
  constructor
  · intro c
    by_cases hc : c = b
    · subst hc
      rw [Index.remove, update_self]
      exact (h.nodup c).erase i
    · rw [Index.remove, update_of_ne hc]
      exact h.nodup c
  · intro c j
    rw [Index.remove]
    by_cases hj : j = i
    · subst hj
      rw [hb]
      by_cases hc : c = b
      · subst hc
        simp [(h.nodup c).mem_erase_iff]
      · rw [update_of_ne hc, h.mem, hi]
        simp [Ne.symm hc]
    · rw [hother j hj, ← h.mem c j]
      by_cases hc : c = b
      · subst hc
        rw [update_self, mem_erase_of_ne hj]
      · rw [update_of_ne hc]

end Mach.Lib.Index
