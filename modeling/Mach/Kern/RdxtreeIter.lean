import Mach.Kern.RdxtreeMap

/-!
# Going through a radix tree

`rdxtree_for_each`, over a tree that does not change meanwhile: the stored pointers
with their keys, slot by slot from the root down. Every pair of the map is met once,
in the order of the keys.
-/

namespace Mach.Kern.Radix

open Lib.Slots List Nat

variable {α : Type}

/-- The pairs under a slot whose keys start at `base`. -/
def visitAt : (h base : Nat) → Option (Tree α h) → List (Nat × α)
  | 0, base, c => c.toList.map fun v => (base, v)
  | _ + 1, _, none => []
  | h + 1, base, some n =>
    (List.finRange 64).flatMap fun i : Fin 64 =>
      visitAt h (base + i * 64 ^ h) (Node.entries n i)

/-- `rdxtree_for_each`. -/
def Rdxtree.visit (t : Rdxtree α) : List (Nat × α) := visitAt t.height 0 t.root

theorem lookupAt_congr {j k : Nat} : ∀ {h : Nat} {c : Option (Tree α h)}, j % 64 ^ h = k % 64 ^ h →
    lookupAt j h c = lookupAt k h c
  | 0, _, _ => rfl
  | _ + 1, none, _ => rfl
  | h + 1, some n, he => by
    obtain ⟨hd, hm⟩ := (mod_pow_succ_eq_iff (by decide) j k h).mp he
    rw [lookupAt, lookupAt, index_eq_iff.mpr hd, lookupAt_congr hm]

theorem mem_visitAt {k : Nat} {v : α} : ∀ {h base : Nat} {c : Option (Tree α h)},
    (k, v) ∈ visitAt h base c ↔ base ≤ k ∧ k < base + 64 ^ h ∧ lookupAt (k - base) h c = some v
  | 0, base, c => by
    constructor
    · intro hmem
      obtain ⟨v', hv', heq⟩ := mem_map.mp hmem
      cases heq
      exact ⟨le_rfl, by simp, Option.mem_toList.mp hv'⟩
    · rintro ⟨hle, hlt, hc⟩
      obtain rfl : k = base := by
        omega
      exact mem_map.mpr ⟨v, Option.mem_toList.mpr hc, rfl⟩
  | h + 1, base, none => by simp [visitAt, lookupAt]
  | h + 1, base, some n => by
    have hp : 0 < 64 ^ h := Nat.pow_pos (by decide)
    have hpow : 64 ^ (h + 1) = 64 * 64 ^ h := by rw [Nat.pow_succ, Nat.mul_comm]
    rw [visitAt, mem_flatMap]
    constructor
    · rintro ⟨i, -, hi⟩
      obtain ⟨hle, hlt, hv⟩ := mem_visitAt.mp hi
      obtain ⟨hidx, hmod, hcap⟩ := index_join i (show k - (base + i * 64 ^ h) < 64 ^ h by omega)
      have hk : i * 64 ^ h + (k - (base + i * 64 ^ h)) = k - base := by omega
      rw [hk] at hidx hmod hcap
      refine ⟨by omega, by omega, ?_⟩
      show lookupAt (k - base) h (Node.entries n (index (k - base) h)) = some v
      rw [hidx, lookupAt_congr hmod, hv]
    · rintro ⟨hle, hlt, hv⟩
      have hsplit : 64 ^ h * ((k - base) / 64 ^ h) + (k - base) % 64 ^ h = k - base :=
        Nat.div_add_mod _ _
      have hmod := Nat.mod_lt (k - base) hp
      have hidx : (index (k - base) h : Nat) = (k - base) / 64 ^ h := by
        show (k - base) / 64 ^ h % 64 = _
        refine Nat.mod_eq_of_lt ((Nat.div_lt_iff_lt_mul hp).mpr ?_)
        omega
      rw [← hidx, Nat.mul_comm] at hsplit
      refine ⟨index (k - base) h, mem_finRange _, mem_visitAt.mpr ⟨by omega, by omega, ?_⟩⟩
      have hlow : k - (base + index (k - base) h * 64 ^ h) = (k - base) % 64 ^ h := by omega
      rw [hlow, lookupAt_congr (Nat.mod_mod _ _)]
      exact hv

theorem visitAt_sorted : ∀ (h base : Nat) (c : Option (Tree α h)),
    (visitAt h base c).Pairwise fun p q => p.1 < q.1
  | 0, base, none => .nil
  | 0, base, some v => pairwise_singleton _ (base, v)
  | h + 1, base, none => .nil
  | h + 1, base, some n => by
    rw [visitAt, pairwise_flatMap]
    refine ⟨fun i _ => visitAt_sorted h _ _, (pairwise_lt_finRange 64).imp ?_⟩
    rintro i j hij ⟨k, v⟩ hk ⟨k', v'⟩ hk'
    obtain ⟨-, hlt, -⟩ := mem_visitAt.mp hk
    obtain ⟨hle, -, -⟩ := mem_visitAt.mp hk'
    -- the keys of a later slot start where those of this one have ended
    have hstep : (i + 1 : Nat) * 64 ^ h ≤ j * 64 ^ h := mul_le_mul_right _ hij
    rw [succ_mul] at hstep
    show k < k'
    omega

theorem mem_visit {t : Rdxtree α} {k : Nat} {v : α} (hk : k < 2 ^ 64) :
    (k, v) ∈ t.visit ↔ t.lookup k = some v := by
  rw [Rdxtree.visit, mem_visitAt, lookup_eq hk, Nat.zero_add]
  split
  next h => exact ⟨fun h' => h'.2.2, fun h' => ⟨Nat.zero_le _, h, h'⟩⟩
  next h => exact ⟨fun h' => absurd h'.2.1 h, nofun⟩

theorem visit_sorted (t : Rdxtree α) : t.visit.Pairwise fun p q => p.1 < q.1 := visitAt_sorted ..

end Mach.Kern.Radix
