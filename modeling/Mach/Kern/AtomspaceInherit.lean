import Mach.Lib.Search
import Mach.Kern.Atomspace

/-!
# Inheritance

`atomspace_inherits_from` asks for the parents of an atom and goes up from each of them. The
query returns 64 handles at most and the recursion keeps no record of where it has been: a
parent that is listed later is missed, and where the links form a cycle the search goes
round it for ever, unless it comes to the atom it looks for first.
-/

namespace Mach.Kern.Atomspace

open Mach.Lib List Search

/-! ## The queries -/

/-- `struct atom_query_result`; `handles` are the first `count` of the array. -/
structure QueryResult where
  handles : List Nat
  totalMatches : Nat
deriving DecidableEq

/-- The parent that the atom gives `child`, if it is a valid inheritance link of its. -/
def Atom.parentOf (child : Nat) (a : Atom) : Option Nat :=
  if !a.flags.valid || a.type ≠ .inheritanceLink then none
  else match a.outgoing with
    | c :: p :: _ => if c = child then some p else none
    | _ => none

def QueryResult.visit (child : Nat) (r : QueryResult) (a : Atom) : QueryResult :=
  match a.parentOf child with
  | none => r
  | some p =>
    { handles := if r.handles.length < 64 then r.handles ++ [p] else r.handles
      totalMatches := r.totalMatches + 1 }

def atomspaceGetInheritance (s : Space) (child : Nat) : QueryResult :=
  s.atoms.foldl (QueryResult.visit child) ⟨[], 0⟩

/-- The handles that a query for the parents of `child` returns. -/
def Space.parents (s : Space) (child : Nat) : List Nat :=
  (atomspaceGetInheritance s child).handles

/-- `depth` is how many calls may be open at a time; `none` when they do not suffice. -/
def atomspaceInheritsFrom (s : Space) (depth child parent : Nat) : Option Bool :=
  Search.search s.parents parent depth child

structure TlContext where
  atomspace : Space
  inferences : UInt32

def tlIsA (depth : Nat) (ctx : Option TlContext) (entity type : Nat) :
    Option (Bool × Option TlContext) :=
  match ctx with
  | none => some (false, none)
  | some ctx =>
    (atomspaceInheritsFrom ctx.atomspace depth entity type).map fun result =>
      (result, some { ctx with inferences := ctx.inferences + 1 })

/-! ## Reachability -/

/-- `parent` is reached from `child` by valid inheritance links, one at least. -/
def Space.Inherits (s : Space) (child parent : Nat) : Prop :=
  Relation.TransGen (fun c p => ∃ a ∈ s.atoms, a.parentOf c = some p) child parent

/-- What a call returns once it has the depth it needs says whether `P` holds. -/
def Decides (call : Nat → Option Bool) (P : Prop) : Prop :=
  ∃ depth result, call depth = some result ∧ (result = true ↔ P)

theorem visit_handles (child : Nat) (atoms : List Atom) (r : QueryResult)
    (hr : r.handles.length ≤ 64) :
    (atoms.foldl (QueryResult.visit child) r).handles
      = (r.handles ++ atoms.filterMap (Atom.parentOf child)).take 64 := by
  induction atoms generalizing r with
  | nil => simp [take_of_length_le hr]
  | cons a atoms ih =>
    rw [foldl_cons, filterMap_cons]
    cases hp : a.parentOf child with
    | none =>
      simp only [QueryResult.visit, hp]
      exact ih r hr
    | some p =>
      simp only [QueryResult.visit, hp]
      by_cases hlt : r.handles.length < 64
      · have hlen : (r.handles ++ [p]).length ≤ 64 := by
          rw [length_append]
          exact hlt
        rw [if_pos hlt, ih _ hlen, append_assoc]
        rfl
      · have hlen : 64 ≤ r.handles.length := Nat.le_of_not_lt hlt
        rw [if_neg hlt, ih ⟨r.handles, r.totalMatches + 1⟩ hr, take_append_of_le_length hlen,
          take_append_of_le_length hlen]

theorem parents_eq (s : Space) (child : Nat) :
    s.parents child = (s.atoms.filterMap (Atom.parentOf child)).take 64 :=
  visit_handles child s.atoms ⟨[], 0⟩ (Nat.zero_le 64)

theorem Space.inherits_of_leads {s : Space} {child parent : Nat}
    (h : Search.Leads s.parents child parent) : s.Inherits child parent := by
  have hlink : ∀ c p, p ∈ s.parents c → ∃ a ∈ s.atoms, a.parentOf c = some p := by
    intro c p hp
    rw [parents_eq] at hp
    exact mem_filterMap.mp (mem_of_mem_take hp)
  exact Relation.TransGen.mono hlink child parent h

/-- The search comes to an end with the right answer. To an atom that is inherited from, it
is led along handles that the queries return, and whatever they list before has no endless
chain of parents; where there is none to be found, `child` has no endless chain. -/
def Space.Searchable (s : Space) (child parent : Nat) : Prop :=
  (s.Inherits child parent → Search.Led s.parents parent child) ∧
    (¬ s.Inherits child parent → Search.Ends s.parents child)

/-- **Inheritance queries** decide reachability where the search ends and misses nothing. -/
theorem inheritsFrom_decides (s : Space) (child parent : Nat) (inferences : UInt32) :
    Decides (fun depth => atomspaceInheritsFrom s depth child parent) (s.Inherits child parent) ∧
        Decides (fun depth => (tlIsA depth (some ⟨s, inferences⟩) child parent).map Prod.fst)
          (s.Inherits child parent)
      ↔ s.Searchable child parent := by
  have htl : (fun depth => (tlIsA depth (some ⟨s, inferences⟩) child parent).map Prod.fst)
      = fun depth => atomspaceInheritsFrom s depth child parent := by
    funext depth
    simp [tlIsA, Function.comp_def]
  rw [htl, and_self]
  constructor
  · intro h
    obtain ⟨depth, result, hcall, hiff⟩ := h
    cases result with
    | true => exact ⟨fun _ => search_true hcall, fun hn => absurd (hiff.mp rfl) hn⟩
    | false =>
      refine ⟨fun hi => absurd (hiff.mpr hi) (by simp), fun _ => ?_⟩
      exact (search_false hcall).1
  · intro h
    by_cases hi : s.Inherits child parent
    · obtain ⟨depth, hdepth⟩ := (h.1 hi).found
      exact ⟨depth, true, hdepth, by simp [hi]⟩
    · obtain ⟨depth, result, hdepth⟩ := (h.2 hi).answers parent
      refine ⟨depth, result, hdepth, ?_⟩
      cases result with
      | true => exact absurd (Space.inherits_of_leads (search_true hdepth).leads) hi
      | false => simp [hi]

/-! ## A cycle, and more parents than a query returns -/

def letter : CString := ⟨[97], forall_mem_singleton.mpr (by decide)⟩

def cycleCalls : List Call :=
  [.addNode .taskNode (some letter), .addNode .threadNode (some letter),
    .addLink .inheritanceLink (some fun i => i + 1) 2,
    .addLink .inheritanceLink (some fun i => 2 - i) 2]

def wideCalls : List Call :=
  [.addNode .taskNode (some letter), .addNode .threadNode (some letter),
    .addNode .portNode (some letter)] ++
  List.replicate 64 (.addLink .inheritanceLink (some fun i => i + 1) 2) ++
  [.addLink .inheritanceLink (some fun i => 2 * i + 1) 2]

theorem cycle_runs : (system.run atomspaceCreate cycleCalls).isSome := by decide

theorem wide_runs : (system.run atomspaceCreate wideCalls).isSome := by decide

def cycle : Space := (system.run atomspaceCreate cycleCalls).get cycle_runs

def wide : Space := (system.run atomspaceCreate wideCalls).get wide_runs

theorem cycle_parents : cycle.parents 1 = [2] ∧ cycle.parents 2 = [1] := by decide

theorem cycle_search (depth : Nat) : atomspaceInheritsFrom cycle depth 1 3 = none ∧
    atomspaceInheritsFrom cycle depth 2 3 = none := by
  induction depth with
  | zero => exact ⟨rfl, rfl⟩
  | succ depth ih =>
    have h1 : search cycle.parents 3 depth 1 = none := ih.1
    have h2 : search cycle.parents 3 depth 2 = none := ih.2
    constructor
    · rw [atomspaceInheritsFrom, search, cycle_parents.1]
      simp [scan, h2]
    · rw [atomspaceInheritsFrom, search, cycle_parents.2]
      simp [scan, h1]

theorem wide_search : atomspaceInheritsFrom wide 2 1 3 = some false := by decide +kernel

theorem wide_link : ∃ a ∈ wide.atoms, a.parentOf 1 = some 3 := by decide +kernel

/-- On the cycle the search for a third atom never ends; of the 65 links of one node the last
is not seen. -/
theorem inheritsFrom_lost : (system.Reach anyStep cycle ∧
      ¬ Decides (fun depth => atomspaceInheritsFrom cycle depth 1 3) (cycle.Inherits 1 3)) ∧
    (system.Reach anyStep wide ∧
      ¬ Decides (fun depth => atomspaceInheritsFrom wide depth 1 3) (wide.Inherits 1 3)) := by
  refine ⟨⟨Lts.reach_get rfl cycle_runs, ?_⟩, ⟨Lts.reach_get rfl wide_runs, ?_⟩⟩
  · intro h
    obtain ⟨depth, result, hcall, -⟩ := h
    cases (cycle_search depth).1.symm.trans hcall
  · intro h
    obtain ⟨depth, result, hcall, hiff⟩ := h
    have hyes : result = true := hiff.mpr (.single wide_link)
    have h1 := search_mono (Nat.le_max_left depth 2) hcall
    have h2 := search_mono (Nat.le_max_right depth 2) wide_search
    rw [h1, hyes] at h2
    cases h2

end Mach.Kern.Atomspace
