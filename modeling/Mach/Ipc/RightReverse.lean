import Mach.Ipc.RightStep

/-!
# The reverse map of a space

`is_reverse_map` is a map from ports to the entries with pure send rights. While
the tree finds memory for its nodes, it has exactly these: then a space has one name at
most for the rights it has to a port, and a copyout of a send right finds it.

`ipc_right_copyin` (a receive right leaves, and send rights stay), `ipc_right_copyout` and
`ipc_right_rename` do not look at what `ipc_reverse_insert` returns. When it found no
memory, the entry is in use and the map does not know it.
-/

namespace Mach.Ipc.Rights

/-! ## Names of rights -/

def Entry.denotes (e : Entry) (p : PortId) : Prop :=
  (e.bits.send ∨ e.bits.receive) ∧ e.object = some (.port p)

/-- The reverse maps of the active spaces are exact, and what follows from it. -/
structure Sys.ReverseExact (S : Sys) : Prop where
  exact : ∀ sp, (S.st.space sp).isActive → ∀ p n, (S.st.space sp).isReverseMap p = some n ↔
      (S.st.entry (sp, n)).bits.type = .send ∧ (S.st.entry (sp, n)).object = some (.port p)
  unique : ∀ sp, (S.st.space sp).isActive → ∀ p, (S.st.port p).active → ∀ n n',
    (S.st.entry (sp, n)).denotes p → (S.st.entry (sp, n')).denotes p → n = n'
  /-- `ipc_object_copyout` of another send right goes to the name there is -/
  found : ∀ sp, (S.st.space sp).isActive → ∀ p, (S.st.port p).active → ∀ n,
    (S.st.entry (sp, n)).denotes p → ∀ overflow nomem fresh,
    ipcObjectCopyout S.st sp p .portSend overflow nomem fresh =
      ipcRightCopyout S.st (sp, n) .portSend overflow nomem p

section

variable {full : Prop} {hole : Option (Key × PortId)} {stray : Option PortId} {s : State}
  {naked : PortId → Nat} {pend : Key → Option Pending} {k : Key} {p : PortId} {sp : SpaceId} {n : Name}

theorem Inv.denotes_cases (h : Inv full hole stray s naked pend) (hk : (s.entry k).denotes p) :
    (s.entry k).receives p ∨ (s.entry k).sendTo p := by
  have hok := h.ok k
  generalize s.entry k = e at hok hk
  cases hok with
  | send => exact .inr ⟨rfl, hk.2⟩
  | receive | sendReceive => exact .inl ⟨rfl, hk.2⟩
  | _ => rcases hk.1 with hb | hb <;> cases hb

theorem Inv.reverse_denotes (h : Inv True none none s naked pend) (hs : (s.space sp).isActive)
    (ha : (s.port p).active) (hk : (s.entry (sp, n)).denotes p) :
    ipcRightReverse s sp p = some n := by
  unfold ipcRightReverse
  rw [if_neg (not_not.mpr ha)]
  rcases h.denotes_cases hk with hr | hsend
  · obtain ⟨-, -, hdata, hname⟩ := h.receives _ p hr
    rw [if_pos hdata, hname]
  · have hmap := h.complete trivial _ p hs (not_excused_none _) hsend
    rw [if_neg (h.merged trivial sp p n hs hmap (not_excused_none _) ha)]
    exact hmap

theorem Sys.Inv.reverseExact {S : Sys} (h : S.Inv True) : S.ReverseExact where
  exact sp hs p n := ⟨fun hn => Rights.Inv.sound h sp p n hs hn (not_excused_none _),
      fun hn => Rights.Inv.complete h trivial (sp, n) p hs (not_excused_none _) hn⟩
  unique sp hs p ha n n' hn hn' := by
    have heq := Rights.Inv.reverse_denotes h hs ha hn
    rw [Rights.Inv.reverse_denotes h hs ha hn'] at heq
    exact (Option.some.inj heq).symm
  found sp hs p ha n hn overflow nomem fresh := by
    unfold ipcObjectCopyout
    rw [if_neg (not_not.mpr hs), if_neg nofun, Rights.Inv.reverse_denotes h hs ha hn]

end

/-- No `ipc_reverse_insert` runs out of memory. -/
def memoryFound (_ : Sys) (a : Action) : Prop := a.nomem = false

/-- **The reverse maps are exact** in every state of every run in which they find memory for
their nodes. -/
theorem reverseExact_of_memoryFound (S : Sys) (h : lts.Reach memoryFound S) : S.ReverseExact :=
  (Sys.Inv.reach (fun _ _ ha _ => ha) h).reverseExact

def emptySys : Sys where
  st :=
    { ports := ∅
      port := fun _ => { newPort 0 (.destination none) with active := false }
      pset := fun _ => ⟨false, 0, 0⟩
      space := fun _ => ⟨true, fun _ => none⟩
      entry := fun _ => .blank
      marequest := fun _ => ⟨0, 0, 0⟩
      marequestTable := []
      timestamp := 0
      notifications := [] }
  held := 0
  pending := fun _ => none
  accepted := ∅

theorem init_emptySys : init emptySys := by
  constructor <;> intros <;> rfl

def twoSendRights (nomem : Bool) : List Action :=
  [.portAllocSpecial 1 .kernel, .makeSend 1, .copyout 0 1 .portSend false nomem (some 5),
    .makeSend 1, .copyout 0 1 .portSend false false (some 6)]

theorem reverseExact_twoSendRights :
    ∃ S, lts.run emptySys (twoSendRights false) = some S ∧ S.ReverseExact := by
  obtain ⟨S, hS⟩ := Option.isSome_iff_exists.mp
    (show (lts.run emptySys (twoSendRights false)).isSome by decide)
  refine ⟨S, hS, reverseExact_of_memoryFound S (.run _ (.start init_emptySys) ?_ hS)⟩
  exact lts.okRun_of_forall _ _ fun a ha _ => by
    simp only [twoSendRights, List.mem_cons, List.not_mem_nil, or_false] at ha
    rcases ha with rfl | rfl | rfl | rfl | rfl <;> rfl

/-- When the first one finds no memory in the reverse map, the space ends up with two names
for the port, which is alive. -/
theorem twoNames_of_nomem : ∃ S, lts.Reach Lib.anyStep S ∧ (S.st.space 0).isActive ∧
    (S.st.port 1).active ∧ (S.st.entry (0, 5)).sendTo 1 ∧ (S.st.entry (0, 6)).sendTo 1 ∧
    (S.st.space 0).isReverseMap 1 = some 6 ∧ ¬ S.ReverseExact := by
  obtain ⟨S, hS⟩ := Option.isSome_iff_exists.mp
    (show (lts.run emptySys (twoSendRights true)).isSome by decide)
  have hentry : (S.st.space 0).isActive ∧ (S.st.port 1).active ∧
      (S.st.entry (0, 5)).sendTo 1 ∧ (S.st.entry (0, 6)).sendTo 1 ∧
      (S.st.space 0).isReverseMap 1 = some 6 := by
    cases hS
    exact ⟨rfl, rfl, ⟨rfl, rfl⟩, ⟨rfl, rfl⟩, rfl⟩
  obtain ⟨hs, ha, h5, h6, hmap⟩ := hentry
  refine ⟨S, .run _ (.start init_emptySys) (lts.okRun_any _ _) hS, hs, ha, h5, h6, hmap, fun h => ?_⟩
  have hfive := (h.exact 0 hs 1 5).mpr h5
  rw [hmap] at hfive
  cases hfive

/-! ## Receive rights and dead-name requests -/

/-- **A port has one receive right**, in every state of every run: the entry whose space and
name the port knows, or a naked one, in a message or a notification. -/
theorem receive_right_unique (S : Sys) (h : lts.Reach Lib.anyStep S) (p : PortId) :
    (S.held + S.st.noted).count (.receive p) ≤ 1 ∧
    (∀ k, (S.st.entry k).receives p → (S.st.port p).active ∧ (S.st.port p).data = .receiver k.1 ∧
      (S.st.port p).receiverName = k.2 ∧ (S.held + S.st.noted).count (.receive p) = 0) ∧
    ∀ sp, (S.st.port p).active → (S.st.port p).data = .receiver sp → (S.st.space sp).isActive →
      (S.st.entry (sp, (S.st.port p).receiverName)).receives p := by
  have hinv : S.Inv False := .reach (fun _ _ _ => False.elim) h
  have hnaked := Rights.Inv.naked hinv p
  rw [Multiset.count_add]
  refine ⟨?_, fun k hk => ?_, fun sp ha hdata hs => hinv.receiver p sp nofun ha hdata hs⟩
  · by_contra hlt
    have := (hnaked fun h0 => hlt (h0.trans_le zero_le_one)).1
    exact hlt this.le
  · obtain ⟨-, ha, hdata, hname⟩ := hinv.receives k p hk
    refine ⟨ha, hdata, hname, ?_⟩
    by_contra hne
    obtain ⟨-, -, -, dest, hdest⟩ := hnaked hne
    rw [hdata] at hdest
    cases hdest

/-- A port is allocated under the name 5 of the space 0, its receive right is moved into a message,
and out of it under the name 6. -/
def movedRight : List Action :=
  [.portAlloc 1 (0, 5), .copyin (0, 5) .moveReceive false false, .finish (0, 5),
    .copyout 0 1 .portReceive false false (some 6)]

theorem receive_right_unique_movedRight :
    ∃ S, lts.run emptySys movedRight = some S ∧ (S.st.port 1).receiverName = 6 ∧
      (S.held + S.st.noted).count (.receive 1) = 0 := by
  refine ⟨_, rfl, ?_⟩
  exact ((receive_right_unique _ (.run movedRight (.start init_emptySys) (lts.okRun_any _ _) rfl)
    1).2.1 (0, 6) ⟨rfl, rfl⟩).2.2

/-- **A dead-name request belongs to one entry**: the slot of a live port that an entry refers
to is in use, and no other entry for the port refers to it. -/
theorem request_owned (S : Sys) (h : lts.Reach Lib.anyStep S) {k : Key} {p : PortId}
    (hobj : (S.st.entry k).object = some (.port p)) (ha : (S.st.port p).active)
    (hreq : (S.st.entry k).request ≠ 0) : (S.st.port p).slotUsed (S.st.entry k).request ∧
      ∀ k', (S.st.entry k').object = some (.port p) →
        (S.st.entry k').request = (S.st.entry k).request → k' = k := by
  have hinv : S.Inv False := .reach (fun _ _ _ => False.elim) h
  refine ⟨hinv.request k p hobj ha hreq, fun k' hobj' heq => ?_⟩
  exact (hinv.apart k k' p hobj hobj' ha hreq heq.symm).symm

def oneRequest : List Action :=
  [.portAlloc 1 (0, 5), .portAllocSpecial 2 .kernel, .makeSonce 2, .dngrow 1 2,
    .dnrequest (0, 5) false (some 2)]

theorem request_owned_oneRequest : ∃ S, lts.run emptySys oneRequest = some S ∧
    (S.st.port 1).slotUsed (S.st.entry (0, 5)).request := by
  refine ⟨_, rfl, ?_⟩
  exact (request_owned _ (.run oneRequest (.start init_emptySys) (lts.okRun_any _ _) rfl)
    rfl rfl (by decide)).1

end Mach.Ipc.Rights
