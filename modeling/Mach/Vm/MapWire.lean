import Mathlib.Data.BitVec

/-!
# Wiring the entries of an address map

`vm_map_pageable_scan` of `vm/vm_map.c`. The first pass goes through the entries from
`start_entry` on and updates their wired counts; the second one faults in the pages of those
that were not wired before. The first pass goes on to the next entry at the bottom of its
loop only: where it has nothing to wire it says `continue`, and stays where it is.

Left out are the locks and the assertions. No error is ever reported: the results of the
faults are ignored, in `vm_fault_wire` already.
-/

namespace Mach.Vm.MapWire

open List

/-- `vm_prot_t`. -/
abbrev Prot := BitVec 32

/-- `VM_PROT_NONE` and `VM_PROT_WRITE`. -/
def protNone : Prot := 0
def protWrite : Prot := 2

/-- What is read and written of a `struct vm_map_entry`; objects are numbered. -/
structure Entry where
  vmeStart : BitVec 64
  vmeEnd : BitVec 64
  object : Option Nat
  offset : BitVec 64
  needsCopy : Bool
  inTransition : Bool
  needsWakeup : Bool
  protection : Prot
  wiredCount : Nat
  wiredAccess : Prot

/-- A call to `vm_fault_wire` or `vm_fault_unwire`. -/
inductive Fault
  | wire (e : Entry)
  | unwire (e : Entry)

/-- A map in a scan: the entries that it is done with, those it has still to go to, and what
it counts and calls. -/
structure Scan where
  done : List Entry
  entries : List Entry
  sizeWired : BitVec 64
  nextObject : Nat
  doWireFaults : Bool
  faults : List Fault

namespace Scan

/-- `vm_map_entry_reset_wired` and `vm_fault_unwire`; the entry is still the current one. -/
def unwire (s : Scan) (e : Entry) (rest : List Entry) : Scan :=
  { s with
    entries := { e with wiredCount := 0 } :: rest
    sizeWired := s.sizeWired - (e.vmeEnd - e.vmeStart)
    faults := s.faults ++ [.unwire { e with wiredCount := 0 }] }

/-- What `vm_map_lookup` would need the write lock for: a shadow object where the region is
copied on write, an object where it is filled with zeros. -/
def prepare (s : Scan) (e : Entry) : Scan × Entry :=
  if e.needsCopy ∧ e.protection &&& protWrite ≠ 0 then
    ({ s with nextObject := s.nextObject + 1 },
      { e with object := some s.nextObject, offset := 0, needsCopy := false })
  else if e.object = none then
    ({ s with nextObject := s.nextObject + 1 }, { e with object := some s.nextObject, offset := 0 })
  else (s, e)

/-- `vm_map_entry_inc_wired`. -/
def incWired (s : Scan) (e : Entry) : Scan × Entry :=
  if e.wiredCount > 1 then (s, e)
  else
    (if e.wiredCount = 0 then { s with sizeWired := s.sizeWired + (e.vmeEnd - e.vmeStart) } else s,
      { e with wiredCount := e.wiredCount + 1 })

def wire (s : Scan) (e : Entry) (rest : List Entry) : Scan :=
  let (s, e) := if e.wiredCount = 0 then s.prepare e else (s, e)
  let (s, e) := s.incWired e
  { s with
    done := s.done ++ [e]
    entries := rest
    doWireFaults := s.doWireFaults || e.wiredCount == 1 }

def turn (s : Scan) (e : Entry) (rest : List Entry) : Scan :=
  if e.wiredAccess = protNone then
    if e.wiredCount ≠ 0 then s.unwire e rest else s
  else if e.protection = protNone then
    if e.wiredCount = 0 then s else s.unwire e rest
  else s.wire e rest

def pass1 (stop : BitVec 64) : Nat → Scan → Option Scan
  | 0, _ => none
  | fuel + 1, s =>
    match s.entries with
    | [] => some s
    | e :: rest => if e.vmeStart < stop then pass1 stop fuel (s.turn e rest) else some s

/-- A loop over the entries that end by `stop`. -/
def upTo (stop : BitVec 64) (f : Entry → Entry) : List Entry → List Entry
  | [] => []
  | e :: rest => if e.vmeEnd ≤ stop then f e :: upTo stop f rest else e :: rest

/-- The second pass, if there is anything to fault in: the entries and the faults. In a map
of the kernel the entries are in transition meanwhile. -/
def pass2 (kernel : Bool) (stop : BitVec 64) (s : Scan) : List Entry × List Fault :=
  let entries := s.done ++ s.entries
  if !s.doWireFaults then (entries, s.faults)
  else
    let wired := (entries.takeWhile (·.vmeEnd ≤ stop)).filter (·.wiredCount = 1)
    let faults := s.faults ++ wired.map .wire
    if kernel then
      let entries := upTo stop (fun e => { e with inTransition := true, needsWakeup := false }) entries
      (upTo stop (fun e => { e with inTransition := false }) entries, faults)
    else (entries, faults)

end Scan

/-- The entries of a map from `start_entry` on. Those before it play no part. -/
structure Map where
  entries : List Entry
  sizeWired : BitVec 64
  nextObject : Nat
  kernel : Bool

namespace Map

def scan (m : Map) : Scan := ⟨[], m.entries, m.sizeWired, m.nextObject, false, []⟩

/-- `vm_map_pageable_scan`, if its first pass ends within `fuel` turns. -/
def pageableScan (m : Map) (stop : BitVec 64) (fuel : Nat) : Option (List Entry × List Fault) :=
  (m.scan.pass1 stop fuel).map (Scan.pass2 m.kernel stop)

/-- The entries of the range, and those beyond it. -/
def range (m : Map) (stop : BitVec 64) : List Entry := m.entries.takeWhile (·.vmeStart < stop)
def beyond (m : Map) (stop : BitVec 64) : List Entry := m.entries.dropWhile (·.vmeStart < stop)

/-- No entry is empty, and they are in order. -/
structure WellFormed (m : Map) : Prop where
  nonempty : ∀ e ∈ m.entries, e.vmeStart < e.vmeEnd
  sorted : m.entries.Pairwise fun e e' => e.vmeEnd ≤ e'.vmeStart

end Map

/-! ## The wiring that is due -/

namespace Entry

def Wirable (e : Entry) : Prop := e.wiredAccess ≠ protNone ∧ e.protection ≠ protNone

instance (e : Entry) : Decidable e.Wirable := inferInstanceAs (Decidable (_ ∧ _))

/-- The wired count one step further, in the direction that `wired_access` demands. A count
beyond 1 goes no further up. -/
def due (e : Entry) : Nat :=
  if ¬ e.Wirable then 0 else if e.wiredCount > 1 then e.wiredCount else e.wiredCount + 1

end Entry

/-- Every entry of the range has the count that is due, and the others are what they were. -/
def Map.Settled (m : Map) (stop : BitVec 64) (after : List Entry) : Prop :=
  ∃ changed, after = changed ++ m.beyond stop ∧
    changed.map (fun e => (e.vmeStart, e.vmeEnd, e.wiredCount)) =
      (m.range stop).map fun e => (e.vmeStart, e.vmeEnd, e.due)

/-! ## The first pass -/

section

variable {stop : BitVec 64} {s : Scan} {e : Entry} {rest : List Entry}

theorem Scan.prepare_eq (s : Scan) (e : Entry) : ∃ n object offset needsCopy, s.prepare e =
    ({ s with nextObject := n },
      { e with object := object, offset := offset, needsCopy := needsCopy }) := by
  unfold prepare
  split
  · exact ⟨_, _, _, _, rfl⟩
  · split <;> exact ⟨_, _, _, _, rfl⟩

theorem Scan.wire_spec (hw : e.Wirable) : (s.wire e rest).entries = rest ∧
    ∃ e', (s.wire e rest).done = s.done ++ [e'] ∧
      (e'.vmeStart, e'.vmeEnd, e'.wiredCount) = (e.vmeStart, e.vmeEnd, e.due) := by
  obtain ⟨n, object, offset, needsCopy, hprep⟩ := s.prepare_eq e
  rw [Entry.due, if_neg (not_not.mpr hw), wire, hprep]
  unfold incWired
  by_cases h0 : e.wiredCount = 0
  · simp [h0]
  · by_cases h1 : e.wiredCount > 1 <;> simp [h0, h1]

theorem Scan.turn_of_not_wirable (hs : s.entries = e :: rest) (hw : ¬ e.Wirable) :
    ∃ e', (s.turn e rest).entries = e' :: rest ∧ e'.vmeStart = e.vmeStart ∧ ¬ e'.Wirable := by
  have hstay : (s.turn e rest).entries = { e with wiredCount := 0 } :: rest ∨ s.turn e rest = s := by
    unfold turn
    split
    next =>
      split
      · exact .inl rfl
      · exact .inr rfl
    next ha =>
      rw [if_pos (not_not.mp fun hp => hw ⟨ha, hp⟩)]
      split
      · exact .inr rfl
      · exact .inl rfl
  rcases hstay with h | h
  · exact ⟨_, h, rfl, hw⟩
  · exact ⟨e, by rw [h, hs], rfl, hw⟩

theorem Scan.pass1_stuck : ∀ (fuel : Nat) {s : Scan},
    (∃ e ∈ s.entries.takeWhile (·.vmeStart < stop), ¬ e.Wirable) → s.pass1 stop fuel = none
  | 0, _, _ => rfl
  | fuel + 1, s, ⟨e, he, hw⟩ => by
    rw [pass1]
    cases hs : s.entries with
    | nil => simp [hs] at he
    | cons d rest =>
      rw [hs, takeWhile_cons] at he
      by_cases hd : d.vmeStart < stop
      · simp only [hd, decide_true, if_true] at he ⊢
        apply pass1_stuck fuel
        by_cases hdw : d.Wirable
        · have hturn : s.turn d rest = s.wire d rest := by rw [turn, if_neg hdw.1, if_neg hdw.2]
          rw [hturn]
          rcases mem_cons.mp he with rfl | he
          · exact absurd hdw hw
          · exact ⟨e, he, hw⟩
        · obtain ⟨d', hent, hstart, hw'⟩ := turn_of_not_wirable hs hdw
          refine ⟨d', ?_, hw'⟩
          rw [hent, takeWhile_cons, hstart, decide_eq_true hd]
          exact mem_cons_self ..
      · simp [hd] at he

theorem Scan.pass1_wires : ∀ {entries : List Entry} {s : Scan}, s.entries = entries →
    (∀ e ∈ entries.takeWhile (·.vmeStart < stop), e.Wirable) →
    ∃ s' changed, s.pass1 stop (entries.length + 1) = some s' ∧
      s'.entries = entries.dropWhile (·.vmeStart < stop) ∧ s'.done = s.done ++ changed ∧
      changed.map (fun e => (e.vmeStart, e.vmeEnd, e.wiredCount)) =
        (entries.takeWhile (·.vmeStart < stop)).map fun e => (e.vmeStart, e.vmeEnd, e.due)
  | [], s, hs, _ => ⟨s, [], by rw [pass1, hs], hs, (append_nil _).symm, rfl⟩
  | e :: rest, s, hs, hw => by
    rw [pass1, hs]
    by_cases he : e.vmeStart < stop
    · simp only [he, takeWhile_cons, dropWhile_cons, decide_true, if_true] at hw ⊢
      have hew : e.Wirable := hw e (mem_cons_self ..)
      obtain ⟨hent, e', hdone, hspan⟩ := wire_spec hew
      have hturn : s.turn e rest = s.wire e rest := by rw [turn, if_neg hew.1, if_neg hew.2]
      obtain ⟨s', changed, hrun, hent', hdone', hspans⟩ :=
        pass1_wires hent (forall_mem_cons.mp hw).2
      refine ⟨s', e' :: changed, hturn ▸ hrun, hent', ?_, ?_⟩
      · rw [hdone', hdone, append_assoc]
        rfl
      · rw [map_cons, map_cons, hspan, hspans]
    · refine ⟨s, [], ?_, ?_, (append_nil _).symm, ?_⟩
      · simp [he]
      · simp [he, hs]
      · simp [he]

end

/-! ## The second pass -/

section

variable {stop : BitVec 64} {f : Entry → Entry}

theorem upTo_append {beyond : List Entry} (hb : ∀ e ∈ beyond.head?, ¬ e.vmeEnd ≤ stop) :
    ∀ entries, Scan.upTo stop f (entries ++ beyond) = Scan.upTo stop f entries ++ beyond
  | [] => by
    cases beyond with
    | nil => rfl
    | cons e rest => exact if_neg (hb e rfl)
  | e :: rest => by
    rw [cons_append, Scan.upTo, Scan.upTo, upTo_append hb rest]
    split <;> rfl

theorem map_upTo {β : Type} (g : Entry → β) (hf : ∀ e, g (f e) = g e) :
    ∀ entries, (Scan.upTo stop f entries).map g = entries.map g
  | [] => rfl
  | e :: rest => by
    rw [Scan.upTo]
    split
    · rw [map_cons, map_cons, hf, map_upTo g hf rest]
    · rfl

theorem pass2_settled {m : Map} {s : Scan} {changed : List Entry} (hwf : m.WellFormed)
    (hent : s.entries = m.beyond stop) (hdone : s.done = changed)
    (hspans : changed.map (fun e => (e.vmeStart, e.vmeEnd, e.wiredCount)) =
      (m.range stop).map fun e => (e.vmeStart, e.vmeEnd, e.due)) (kernel : Bool) :
    m.Settled stop (s.pass2 kernel stop).1 := by
  -- an entry beyond the range does not end by `stop`
  have hbeyond : ∀ e ∈ (m.beyond stop).head?, ¬ e.vmeEnd ≤ stop := by
    intro e he hle
    have hstart := List.head?_dropWhile_not (fun e : Entry => decide (e.vmeStart < stop)) m.entries
    rw [show (List.dropWhile _ m.entries).head? = some e from he] at hstart
    have hmem : e ∈ m.entries := (dropWhile_sublist _).mem (mem_of_mem_head? he)
    have hne := hwf.nonempty e hmem
    simp only [decide_eq_false_iff_not] at hstart
    bv_omega
  unfold Scan.pass2
  simp only [hdone, hent]
  split
  · exact ⟨changed, rfl, hspans⟩
  · split
    · refine ⟨_, by rw [upTo_append hbeyond, upTo_append hbeyond], ?_⟩
      rw [map_upTo, map_upTo, hspans]
      all_goals exact fun _ => rfl
    · exact ⟨changed, rfl, hspans⟩

end

/-- **The scan reaches its end, with every count changed by the step that is due, exactly
when no entry of the range is to be left or made unwired.** -/
theorem pageableScan_settles_iff (m : Map) (hwf : m.WellFormed) (stop : BitVec 64) :
    (∃ fuel after faults, m.pageableScan stop fuel = some (after, faults) ∧ m.Settled stop after) ↔
      ∀ e ∈ m.range stop, e.Wirable := by
  constructor
  · intro ⟨fuel, after, faults, hrun, _⟩ e he
    by_contra hw
    have hstuck : m.scan.pass1 stop fuel = none := Scan.pass1_stuck fuel ⟨e, he, hw⟩
    rw [Map.pageableScan, hstuck] at hrun
    cases hrun
  · intro hw
    obtain ⟨s, changed, hrun, hent, hdone, hspans⟩ := Scan.pass1_wires (s := m.scan) rfl hw
    have hend : m.pageableScan stop (m.entries.length + 1) = some (s.pass2 m.kernel stop) :=
      congrArg (Option.map _) hrun
    exact ⟨_, _, _, hend, pass2_settled hwf hent hdone hspans m.kernel⟩

def onePage (wiredAccess : Prot) : Map where
  entries := [⟨0, 0x1000, none, 0, false, false, false, 1, 0, wiredAccess⟩]
  sizeWired := 0
  nextObject := 0
  kernel := false

/-- To unwire a page that is not wired takes for ever. -/
theorem pageableScan_hangs : (onePage protNone).WellFormed ∧
    ∀ fuel, (onePage protNone).pageableScan 0x1000 fuel = none := by
  refine ⟨⟨by decide, by decide⟩, fun fuel => ?_⟩
  have hstuck : (onePage protNone).scan.pass1 0x1000 fuel = none :=
    Scan.pass1_stuck fuel ⟨_, mem_singleton_self _, fun hw => hw.1 rfl⟩
  rw [Map.pageableScan, hstuck]
  rfl

def fivePages : Map :=
  { onePage 1 with
    entries := [⟨0, 0x1000, none, 0, false, false, false, 1, 0, 1⟩,
      ⟨0x1000, 0x3000, some 7, 0, true, false, false, 3, 0, 3⟩,
      ⟨0x3000, 0x4000, some 8, 0, false, false, false, 1, 1, 1⟩,
      ⟨0x4000, 0x5000, none, 0, false, false, false, 1, 0, protNone⟩]
    sizeWired := 0x1000
    nextObject := 9 }

theorem fivePages_settles : ∃ fuel after faults,
    fivePages.pageableScan 0x4000 fuel = some (after, faults) ∧ fivePages.Settled 0x4000 after :=
  (pageableScan_settles_iff fivePages ⟨by decide, by decide⟩ 0x4000).mpr (by decide)

end Mach.Vm.MapWire
