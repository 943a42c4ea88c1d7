import Mathlib.Data.Finset.Card

/-!
# Chains in a graph of out-degree at most one

A map `next : α → Option α` is a graph in which every vertex has at most one
successor. `Acyclic next` says that no vertex is reached from itself by one or
more links; `Path next a l b` that following the links from `a` visits exactly
the vertices of `l` before it arrives at `b`.

Three facts carry everything built on top: cutting a link keeps the graph
acyclic, adding one keeps it acyclic unless its end already reaches its start,
and a path that ends in a vertex without successor lists *everything* reachable
from its start.
-/

namespace Mach.Lib.Chain

open Relation Function List

variable {α : Type*}

/-- One link of the graph. -/
def Link (next : α → Option α) (a b : α) : Prop := next a = some b

/-- `b` is reached from `a` by zero or more links. -/
def Reaches (next : α → Option α) : α → α → Prop := ReflTransGen (Link next)

/-- No vertex is reached from itself by one or more links. -/
def Acyclic (next : α → Option α) : Prop := ∀ a, ¬ TransGen (Link next) a a

/-- Following the links from `a`, the vertices of `l` are visited one after the
other and then `b`. -/
def Path (next : α → Option α) : α → List α → α → Prop
  | a, [], b => a = b
  | a, c :: cs, b => a = c ∧ ∃ d, next c = some d ∧ Path next d cs b

/-! ## Reaching -/

theorem reaches_of_none {next : α → Option α} {a b : α} (ha : next a = none)
    (h : Reaches next a b) : a = b := by
  rcases ReflTransGen.cases_head h with heq | ⟨c, hac, _⟩
  · exact heq
  · rw [Link, ha] at hac
    exact absurd hac (by simp)

section

variable [DecidableEq α] {next : α → Option α} {p d : α}

theorem Acyclic.cut (h : Acyclic next) (p : α) : Acyclic (update next p none) := by
  refine fun a ha => h a (TransGen.mono (fun x y hxy => ?_) a a ha)
  unfold Link at *
  by_cases hx : x = p
  · subst hx
    simp at hxy
  · rwa [update_of_ne hx] at hxy

theorem reaches_update {a b : α} (hp : next p = none) (h : Reaches (update next p (some d)) a b) :
    Reaches next a b ∨ Reaches next a p ∧ Reaches (update next p (some d)) d b := by
  induction h with
  | refl => exact .inl .refl
  | @tail x y hax hxy ih =>
    by_cases hx : x = p
    · subst hx
      have hy : d = y := by simpa [Link] using hxy
      subst hy
      rcases ih with ih | ⟨ih, -⟩
      · exact .inr ⟨ih, .refl⟩
      · exact .inr ⟨ih, .refl⟩
    · have hold : Link next x y := by rwa [Link, update_of_ne hx] at hxy
      rcases ih with ih | ⟨ih, ih'⟩
      · exact .inl (ih.tail hold)
      · exact .inr ⟨ih, ih'.tail hxy⟩

theorem Acyclic.link (h : Acyclic next) (hp : next p = none) (hd : ¬ Reaches next d p) :
    Acyclic (update next p (some d)) := by
  -- whoever reaches `p` in the new graph reached it before
  have hto : ∀ a, Reaches (update next p (some d)) a p → Reaches next a p := by
    intro a ha
    rcases reaches_update hp ha with ha | ⟨ha, _⟩ <;> exact ha
  intro a ha
  obtain ⟨c, hac, hca⟩ := TransGen.head'_iff.mp ha
  by_cases hap : a = p
  · subst hap
    have hc : d = c := by simpa [Link] using hac
    subst hc
    exact hd (hto d hca)
  · have hold : Link next a c := by rwa [Link, update_of_ne hap] at hac
    rcases reaches_update hp hca with hca | ⟨hcp, hda⟩
    · exact h a (TransGen.head' hold hca)
    · -- the cycle uses the new link: d ⇒ a → c ⇒ p, so d reaches p
      have hcp' : Reaches (update next p (some d)) c p := by
        refine ReflTransGen.mono (fun x y hxy => ?_) _ _ hcp
        unfold Link at *
        have hx : x ≠ p := by
          rintro rfl
          rw [hp] at hxy
          exact absurd hxy (by simp)
        rwa [update_of_ne hx]
      have : Reaches (update next p (some d)) d p := (hda.tail hac).trans hcp'
      exact hd (hto d this)

end

/-! ## Paths -/

namespace Path

variable {next : α → Option α}

theorem snoc : ∀ {l : List α} {a b c : α}, Path next a l b → next b = some c →
    Path next a (l ++ [b]) c
  | [], a, b, c, h, hb => by
    obtain rfl : a = b := h
    exact ⟨rfl, c, hb, rfl⟩
  | x :: l, a, b, c, ⟨hax, d, hd, h⟩, hb => ⟨hax, d, hd, snoc h hb⟩

theorem reaches : ∀ {l : List α} {a b : α}, Path next a l b → Reaches next a b
  | [], a, b, h => by
    obtain rfl : a = b := h
    exact .refl
  | x :: l, a, b, ⟨hax, d, hd, h⟩ => by
    subst hax
    exact (reaches h).head hd

theorem mem_trans : ∀ {l : List α} {a b : α}, Path next a l b → ∀ x ∈ l, TransGen (Link next) x b
  | [], _, _, _, x, hx => absurd hx not_mem_nil
  | c :: l, a, b, ⟨_, d, hd, h⟩, x, hx => by
    rcases mem_cons.mp hx with rfl | hx
    · exact TransGen.head' hd (reaches h)
    · exact mem_trans h x hx

theorem nodup (hac : Acyclic next) : ∀ {l : List α} {a b : α}, Path next a l b → l.Nodup ∧ b ∉ l
  | [], _, _, _ => ⟨nodup_nil, not_mem_nil⟩
  | c :: l, a, b, h => by
    have hend : b ∉ c :: l := fun hb => hac b (mem_trans h b hb)
    obtain ⟨_, d, hd, hl⟩ := h
    refine ⟨nodup_cons.mpr ⟨fun hc => ?_, (nodup hac hl).1⟩, hend⟩
    -- c would lie on the path from its own successor
    have hdc : Reaches next d c := mem_reaches hl c hc
    exact hac c (TransGen.head' hd hdc)
where
  mem_reaches : ∀ {l : List α} {a b : α}, Path next a l b → ∀ x ∈ l, Reaches next a x
    | [], _, _, _, x, hx => absurd hx not_mem_nil
    | c :: l, a, b, ⟨hac, d, hd, h⟩, x, hx => by
      subst hac
      rcases mem_cons.mp hx with rfl | hx
      · exact .refl
      · exact (mem_reaches h x hx).head hd

theorem reaches_iff : ∀ {l : List α} {a b : α}, Path next a l b → next b = none →
    ∀ x, Reaches next a x ↔ x ∈ l ∨ x = b
  | [], a, b, h, hb, x => by
    obtain rfl : a = b := h
    constructor
    · intro hx
      exact .inr (reaches_of_none hb hx).symm
    · rintro (hx | rfl)
      · exact absurd hx not_mem_nil
      · exact .refl
  | c :: l, a, b, ⟨hac, d, hd, h⟩, hb, x => by
    subst hac
    have ih := reaches_iff h hb x
    constructor
    · intro hx
      rcases ReflTransGen.cases_head hx with rfl | ⟨e, hce, hex⟩
      · exact .inl mem_cons_self
      · rw [Link, hd] at hce
        obtain rfl := Option.some.inj hce
        rcases ih.mp hex with hx | hx
        · exact .inl (mem_cons_of_mem _ hx)
        · exact .inr hx
    · rintro (hx | rfl)
      · rcases mem_cons.mp hx with rfl | hx
        · exact .refl
        · exact (ih.mpr (.inl hx)).head hd
      · exact (ih.mpr (.inr rfl)).head hd

theorem congr {next' : α → Option α} : ∀ {l : List α} {a b : α}, Path next a l b →
    (∀ x ∈ l, next' x = next x) → Path next' a l b
  | [], _, _, h, _ => h
  | c :: _, _, _, ⟨hac, d, hd, h⟩, heq =>
    ⟨hac, d, (heq c mem_cons_self).trans hd, congr h (forall_mem_cons.mp heq).2⟩

theorem length_le (hac : Acyclic next) {l : List α} {a b : α} (h : Path next a l b)
    {F : Finset α} (hF : ∀ x, next x ≠ none → x ∈ F) : l.length ≤ F.card := by
  classical
  have hsub : l.toFinset ⊆ F := by
    intro x hx
    refine hF x fun hnone => ?_
    obtain ⟨y, hxy, _⟩ := TransGen.head'_iff.mp (mem_trans h x (mem_toFinset.mp hx))
    rw [Link, hnone] at hxy
    exact absurd hxy (by simp)
  rw [← toFinset_card_of_nodup (nodup hac h).1]
  exact Finset.card_le_card hsub

end Path

end Mach.Lib.Chain
