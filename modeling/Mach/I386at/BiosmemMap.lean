import Mathlib.Algebra.GroupWithZero.Nat

/-!
# The boot memory map

`biosmem_map_filter`, `biosmem_map_sort` and `biosmem_map_adjust` of `i386/i386at/biosmem.c`.
Addresses and lengths are numbers below `2 ^ 64`, and the arithmetic wraps around.

The array is a list. While entry `i` is compared with the entries after it, the list is cut
in four: the entries before it, the entry itself, those it has been compared with, and those
it is still to be compared with.
-/

namespace Mach.I386at.Biosmem

/-- `struct biosmem_map_entry`. -/
structure Entry where
  base : Nat
  length : Nat
  type : Nat
deriving DecidableEq

/-- Addition of `uint64_t`. -/
def add64 (x y : Nat) : Nat := (x + y) % 2 ^ 64

/-- Subtraction of `uint64_t`. -/
def sub64 (x y : Nat) : Nat := (x + 2 ^ 64 - y) % 2 ^ 64

/-- `BIOSMEM_MAX_MAP_SIZE`. -/
def maxMapSize : Nat := 128

/-- `base_addr + length`. -/
def Entry.stop (e : Entry) : Nat := add64 e.base e.length

/-- `biosmem_map_entry_is_invalid`. -/
def Entry.isInvalid (e : Entry) : Bool := e.stop ≤ e.base

/-- `biosmem_map_filter`. -/
def mapFilter (map : List Entry) : List Entry := map.filter fun e => !e.isInvalid

/-! ## `biosmem_map_sort` -/

/-- The inner loop: `tmp` goes behind the last entry that begins before it. The list is the
sorted part of the array from its end. -/
def insertBack (tmp : Entry) : List Entry → List Entry
  | [] => [tmp]
  | e :: rest => if e.base < tmp.base then tmp :: e :: rest else e :: insertBack tmp rest

/-- `biosmem_map_sort`: simple insertion sort. -/
def mapSort (map : List Entry) : List Entry :=
  (map.foldl (fun sorted tmp => insertBack tmp sorted) []).reverse

/-! ## `biosmem_map_adjust` -/

/-- What becomes of two entries that overlap: one entry, two, or a third one for the
overlapping area. -/
inductive Resolution
  | merge (a : Entry)
  | keep (a b : Entry)
  | split (a b tmp : Entry)
deriving DecidableEq

def Entry.absorb (first tmp : Entry) : Entry :=
  { first with base := if first.base > tmp.base then tmp.base else first.base
               length := add64 first.length tmp.length }

/-- What is made of the two entries after they have been cut, and of the overlapping area:
invalid entries are filtered out, and the area is merged with one of its neighbors if it can
be. -/
def settle (a b tmp : Entry) : Resolution :=
  if a.isInvalid ∧ b.isInvalid then .merge tmp
  else if a.isInvalid then .keep tmp b
  else if b.isInvalid then .keep a tmp
  else if tmp.type = a.type then .keep (a.absorb tmp) b
  else if tmp.type = b.type then .keep a (b.absorb tmp)
  else .split a b tmp

/-- The body of the inner loop for entries that overlap; `aEnd` is the end of `a` as it was
when its turn began. -/
def Entry.resolve (a b : Entry) (aEnd : Nat) : Resolution :=
  let bEnd := b.stop
  let first := if a.base < b.base then a else b
  let second := if a.base < b.base then b else a
  let lastEnd := if aEnd > bEnd then aEnd else bEnd
  let lastType := if aEnd > bEnd then a.type else b.type
  let tmp : Entry := ⟨second.base, sub64 (min aEnd bEnd) second.base, max a.type b.type⟩
  let first' := { first with length := sub64 tmp.base first.base }
  let base' := add64 second.base tmp.length
  let second' : Entry := ⟨base', sub64 lastEnd base', lastType⟩
  if a.base < b.base then settle first' second' tmp else settle second' first' tmp

inductive Outcome (α : Type)
  | done (x : α)
  /-- `biosmem: too many memory map entries` -/
  | panic
  | stuck
deriving DecidableEq

/-- The inner loop for entry `b`; `before` entries are before `a`. The result is `none` if
there is no room for a new entry. -/
def compareStep (before aEnd : Nat) (a : Entry) (mid : List Entry) (b : Entry) (rest : List Entry) :
    Option (Entry × List Entry × List Entry) :=
  if a.base ≥ b.stop ∨ aEnd ≤ b.base then some (a, mid ++ [b], rest)
  else
    match a.resolve b aEnd with
    | .merge a => some (a, mid, rest)
    | .keep a b => some (a, mid ++ [b], rest)
    | .split a b tmp =>
      if before + 1 + mid.length + 1 + rest.length ≥ maxMapSize * 2 then none
      else some (a, mid ++ [b], rest ++ [tmp])

def compareLoop (before aEnd : Nat) : Nat → Entry → List Entry → List Entry →
    Outcome (Entry × List Entry)
  | 0, _, _, _ => .stuck
  | _ + 1, a, mid, [] => .done (a, mid)
  | fuel + 1, a, mid, b :: rest =>
    match compareStep before aEnd a mid b rest with
    | none => .panic
    | some (a, mid, rest) => compareLoop before aEnd fuel a mid rest

def adjustLoop : Nat → List Entry → List Entry → Outcome (List Entry)
  | 0, _, _ => .stuck
  | _ + 1, before, [] => .done before
  | fuel + 1, before, a :: rest =>
    match compareLoop before.length a.stop 1024 a [] rest with
    | .done (a, rest) => adjustLoop fuel (before ++ [a]) rest
    | .panic => .panic
    | .stuck => .stuck

/-- `biosmem_map_adjust`. -/
def mapAdjust (map : List Entry) : Outcome (List Entry) :=
  match adjustLoop 257 [] (mapFilter map) with
  | .done map => .done (mapSort map)
  | .panic => .panic
  | .stuck => .stuck

end Mach.I386at.Biosmem
