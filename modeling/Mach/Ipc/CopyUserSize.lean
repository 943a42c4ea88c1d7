import Mach.Ipc.CopyUserRound

/-!
# The size that is announced and the size that is written

`msg_usize` is asked whether a message fits into the buffer of a 32-bit receiver, and then
`copyoutmsg` writes it there. Both go through the items. But the loop of `msg_usize` stops
eight bytes before the end of the message, where a last item without data begins, and it adds
up sizes where `copyoutmsg` aligns addresses.
-/

namespace Mach.Ipc.CopyUser

open Lib.ByteMem List Nat
open Kmsg (MsgType readType)
open Lib.WordMem (walk walk_done walk_turn walk_cases)

/-- One turn of the loop of `msg_usize`. -/
def msgUsizeItem (km : Mem) (usize saddr : Nat) : Except Failure (Nat × MsgType × Nat) :=
  let t := readType .lp64 (words km) saddr
  .ok (userAlign (userAlign (usize + userAmount t) + userLength t), t,
    kernelAlign (kernelAlign (saddr + 8) + kernelLength t))

/-- `msg_usize`. -/
def msgUsize (km : Mem) : Except Failure Nat :=
  if msghSize km > 32 then
    (walk .stuck (msgUsizeItem km) (msghSize km - 8) (msghSize km) 24 32).map Prod.fst
  else .ok 24

/-! ## The items of a message of the kernel -/

/-- The items that begin before `eaddr`. -/
def kernelItems (km : Mem) (eaddr : Nat) : Nat → Nat → List MsgType
  | 0, _ => []
  | fuel + 1, ks =>
    if ks < eaddr then
      readType .lp64 (words km) ks ::
        kernelItems km eaddr fuel (kernelNext (readType .lp64 (words km) ks) ks)
    else []

/-- Where the items end that a user receives at `us`. -/
def userEnd : Nat → List MsgType → Nat
  | us, [] => us
  | us, t :: ts => userEnd (userNext t us) ts

/-- The items of a message, as `copyoutmsg` goes through them. -/
def bodyTypes (km : Mem) : List MsgType := kernelItems km (msghSize km) (msghSize km) 32

/-- No item begins in the last eight bytes: the last one has data, or a pointer to some. -/
def NoBareEnd (km : Mem) : Prop :=
  kernelItems km (msghSize km - 8) (msghSize km) 32 = bodyTypes km

section

variable {km : Mem} {eaddr : Nat} {u u' : User} {us ks : Nat} {t : MsgType}

theorem kernelNext_align (t : MsgType) (h : ks % 8 = 0) :
    kernelAlign (kernelAlign (ks + 8) + kernelLength t) = kernelNext t ks := by
  have halign : kernelAlign (ks + 8) = ks + 8 := kernelAlign_of_dvd (by omega)
  rw [halign]
  rfl

theorem kernelItems_done {fuel : Nat} (h : eaddr ≤ ks) : kernelItems km eaddr fuel ks = [] := by
  cases fuel with
  | zero => rfl
  | succ fuel => exact if_neg (not_lt.mpr h)

theorem msgUsize_walk : ∀ {fuel us ks : Nat}, ks % 8 = 0 → eaddr - ks ≤ fuel →
    walk .stuck (msgUsizeItem km) eaddr fuel us ks =
      .ok (userEnd us (kernelItems km eaddr fuel ks), kernelItems km eaddr fuel ks) := by
  intro fuel
  induction fuel with
  | zero =>
    intro us ks _ hf
    exact walk_done (by omega)
  | succ fuel ih =>
    intro us ks hks hf
    by_cases hlt : ks < eaddr
    · have hnext := le_kernelNext (readType .lp64 (words km) ks) ks
      rw [walk_turn hlt rfl, kernelNext_align _ hks, ih (kernelNext_mod _ _) (by omega), kernelItems,
        if_pos hlt]
      rfl
    · rw [walk_done (by omega), kernelItems_done (by omega)]
      rfl

theorem kernelItems_prefix {eaddr' : Nat} (hle : eaddr' ≤ eaddr) : ∀ {fuel ks : Nat},
    kernelItems km eaddr' fuel ks <+: kernelItems km eaddr fuel ks := by
  intro fuel
  induction fuel with
  | zero => exact fun {_} => nil_prefix
  | succ fuel ih =>
    intro ks
    rw [kernelItems, kernelItems]
    split
    next hlt =>
      rw [if_pos (by omega)]
      exact cons_prefix_cons.mpr ⟨rfl, ih⟩
    next => exact nil_prefix

theorem userEnd_append (us : Nat) (ts ts' : List MsgType) :
    userEnd us (ts ++ ts') = userEnd (userEnd us ts) ts' := by
  induction ts generalizing us with
  | nil => rfl
  | cons t ts ih => exact ih (userNext t us)

theorem le_userEnd (us : Nat) (ts : List MsgType) : us ≤ userEnd us ts := by
  induction ts generalizing us with
  | nil => exact le_refl us
  | cons t ts ih => exact le_trans (le_of_lt (lt_userNext t us)) (ih _)

theorem userEnd_mod (us : Nat) (ts : List MsgType) (h : ts = [] → us % 4 = 0) :
    userEnd us ts % 4 = 0 := by
  induction ts generalizing us with
  | nil => exact h rfl
  | cons t ts ih => exact ih _ fun _ => mul_mod_left _ 4

theorem userEnd_add {umsg : Nat} (h : umsg % 4 = 0) (us : Nat) (ts : List MsgType) :
    userEnd (umsg + us) ts = umsg + userEnd us ts := by
  induction ts generalizing us with
  | nil => rfl
  | cons t ts ih =>
    have hnext : userNext t (umsg + us) = umsg + userNext t us := by
      unfold userNext userAlign
      omega
    rw [userEnd, userEnd, hnext, ih]

theorem eq_of_userEnd_eq {us : Nat} {ts ts' : List MsgType} (hpre : ts <+: ts')
    (h : userEnd us ts = userEnd us ts') : ts = ts' := by
  obtain ⟨rest, rfl⟩ := hpre
  cases rest with
  | nil => rw [append_nil]
  | cons t rest =>
    rw [userEnd_append, userEnd] at h
    have h1 := lt_userNext t (userEnd us ts)
    have h2 := le_userEnd (userNext t (userEnd us ts)) rest
    omega

/-! ## What `copyoutmsg` writes -/

/-- Nothing is written from `hi` on. -/
def Ends (u u' : User) (hi : Nat) : Prop := ∀ a, hi ≤ a → u'.mem a = u.mem a

theorem Ends.trans {u'' : User} {hi hi' : Nat} (h : Ends u u' hi) (h' : Ends u' u'' hi') (hle : hi ≤ hi') :
    Ends u u'' hi' := fun a ha => (h' a ha).trans (h a (hle.trans ha))

theorem copyout_ends {a hi : Nat} {l : List UInt8} (h : u.copyout a l = some u') (hle : a + l.length ≤ hi) :
    Ends u u' hi := by
  cases copyout_eq_some h
  exact fun b hb => writeBytes_above (hle.trans hb)

theorem copyoutItem_ends {s s' : Nat × User} {ks' : Nat} (hks : ks % 8 = 0)
    (h : copyoutItem km s ks = .ok (s', t, ks')) :
    t = readType .lp64 (words km) ks ∧ ks' = kernelNext t ks ∧ s'.1 = userNext t s.1 ∧
      Ends s.2 s'.2 s'.1 := by
  obtain ⟨rfl, hus, rfl, u1, hdesc, hdata⟩ := copyoutItem_eq_ok h
  obtain ⟨h1, h2⟩ := userNext_ge (readType .lp64 (words km) ks) s.1
  refine ⟨rfl, kernelNext_align _ hks, hus, (copyout_ends hdesc ?_).trans (copyout_ends hdata ?_) le_rfl⟩
  · rw [length_copyoutType]
    omega
  · rw [length_dataBytes]
    omega

theorem copyout_walk_ends : ∀ {fuel : Nat} {s s' : Nat × User} {ks : Nat} {ts : List MsgType},
    ks % 8 = 0 → walk .stuck (copyoutItem km) eaddr fuel s ks = .ok (s', ts) →
    ts = kernelItems km eaddr fuel ks ∧ s'.1 = userEnd s.1 ts ∧ Ends s.2 s'.2 s'.1 := by
  intro fuel
  induction fuel with
  | zero =>
    intro s s' ks ts _ h
    rcases walk_cases h with ⟨_, rfl, rfl⟩ | ⟨k, _, _, _, _, hk, _⟩
    · exact ⟨rfl, rfl, fun _ _ => rfl⟩
    · cases hk
  | succ fuel ih =>
    intro s s' ks ts hks h
    rcases walk_cases h with ⟨hge, rfl, rfl⟩ | ⟨k, s1, t, ks1, ts1, hk, hlt, hitem, hrest, rfl⟩
    · exact ⟨(kernelItems_done hge).symm, rfl, fun _ _ => rfl⟩
    · cases hk
      obtain ⟨rfl, rfl, hus, hends⟩ := copyoutItem_ends hks hitem
      obtain ⟨rfl, hus', hends'⟩ := ih (kernelNext_mod _ _) hrest
      rw [hus] at hus'
      refine ⟨by rw [kernelItems, if_pos hlt], hus', hends.trans hends' ?_⟩
      rw [hus', hus]
      exact le_userEnd _ _

end

/-! ## The sizes -/

variable {km : Mem} {u u' : User} {umsg : Nat}

theorem msgUsize_eq (km : Mem) :
    msgUsize km = .ok (userEnd 24 (kernelItems km (msghSize km - 8) (msghSize km) 32)) := by
  unfold msgUsize
  split
  next =>
    rw [msgUsize_walk (by decide) (by omega)]
    rfl
  next h =>
    rw [kernelItems_done (by omega)]
    rfl

theorem copyoutHeader_ends (h : copyoutHeader km u umsg = some u') : Ends u u' (umsg + 24) := by
  unfold copyoutHeader at h
  split at h
  · cases h
  rename_i u1 h1
  split at h
  · cases h
  rename_i u2 h2
  split at h
  · cases h
  rename_i u3 h3
  have e1 : Ends u u1 (umsg + 24) := copyout_ends h1 (by rw [length_readBytes]; omega)
  have e2 : Ends u1 u2 (umsg + 24) := copyout_ends h2 (by rw [length_leBytes]; omega)
  have e3 : Ends u2 u3 (umsg + 24) := copyout_ends h3 (by rw [length_leBytes]; omega)
  have e4 : Ends u3 u' (umsg + 24) := copyout_ends h (by rw [length_readBytes])
  exact ((e1.trans e2 le_rfl).trans e3 le_rfl).trans e4 le_rfl

theorem copyoutmsg_written (h : copyoutmsg km u umsg (msghSize km) = .ok u') :
    readLe u'.mem (umsg + 4) 4 = (userEnd (umsg + 24) (bodyTypes km) - umsg) % 2 ^ 32 ∧
      Ends u u' (userEnd (umsg + 24) (bodyTypes km)) := by
  obtain ⟨u1, s, ts, hheader, hwalk, hsize⟩ := copyoutmsg_eq_ok h
  obtain ⟨rfl, hus, hends⟩ := copyout_walk_ends (by decide) hwalk
  have hle : umsg + 24 ≤ s.1 := hus ▸ le_userEnd _ _
  have hlast : Ends s.2 u' s.1 := copyout_ends hsize (by rw [length_leBytes]; omega)
  change s.1 = userEnd (umsg + 24) (bodyTypes km) at hus
  rw [← hus]
  refine ⟨?_, ((copyoutHeader_ends hheader).trans hends hle).trans hlast le_rfl⟩
  cases copyout_eq_some hsize
  exact readLe_writeLe _ _ 4 _

/-- The size that `msg_usize` announces is the number of bytes written, which is also what
the receiver finds in the header. -/
def SizeKept (km : Mem) (u u' : User) (umsg : Nat) : Prop :=
  ∃ n, msgUsize km = .ok n ∧ userEnd (umsg + 24) (bodyTypes km) = umsg + n ∧
    readLe u'.mem (umsg + 4) 4 = n ∧ Ends u u' (umsg + n)

/-- **The size of a received message.** -/
theorem sizeKept_iff (h : copyoutmsg km u umsg (msghSize km) = .ok u') :
    SizeKept km u u' umsg ↔ (bodyTypes km = [] ∨ umsg % 4 = 0 ∧ NoBareEnd km) ∧
      userEnd 24 (bodyTypes km) < 2 ^ 32 := by
  obtain ⟨hstored, hends⟩ := copyoutmsg_written h
  have hpre : kernelItems km (msghSize km - 8) (msghSize km) 32 <+: bodyTypes km :=
    kernelItems_prefix (Nat.sub_le _ 8)
  have hsmall : ∀ n, readLe u'.mem (umsg + 4) 4 = n → n < 2 ^ 32 := by
    intro n hn
    rw [← hn, hstored]
    exact Nat.mod_lt _ (by decide)
  constructor
  · intro ⟨n, hn, hwritten, hn', _⟩
    cases (msgUsize_eq km).symm.trans hn
    by_cases hnil : bodyTypes km = []
    · exact ⟨.inl hnil, by rw [hnil]; decide⟩
    · -- what is written ends at an aligned address
      have halign := userEnd_mod (umsg + 24) (bodyTypes km) fun he => absurd he hnil
      have halign' := userEnd_mod 24 (kernelItems km (msghSize km - 8) (msghSize km) 32) fun _ => rfl
      have hmsg : umsg % 4 = 0 := by omega
      rw [userEnd_add hmsg] at hwritten
      have hend := eq_of_userEnd_eq hpre (Nat.add_left_cancel hwritten).symm
      refine ⟨.inr ⟨hmsg, hend⟩, ?_⟩
      rw [Nat.add_left_cancel hwritten]
      exact hsmall _ hn'
  · intro ⟨hcond, hlt⟩
    have heq : userEnd (umsg + 24) (bodyTypes km) = umsg + userEnd 24 (bodyTypes km) ∧
        kernelItems km (msghSize km - 8) (msghSize km) 32 = bodyTypes km := by
      rcases hcond with hnil | ⟨hmsg, hend⟩
      · rw [hnil] at hpre ⊢
        exact ⟨rfl, prefix_nil.mp hpre⟩
      · exact ⟨userEnd_add hmsg _ _, hend⟩
    rw [heq.1] at hstored hends
    rw [Nat.add_sub_cancel_left, Nat.mod_eq_of_lt hlt] at hstored
    exact ⟨_, by rw [msgUsize_eq, heq.2], heq.1, hstored, hends⟩

/-- A message of the kernel with one inline item of `number` integers of 32 bits, all zero. -/
def integers (number : Nat) : Mem :=
  (userOf (List.replicate 4 0 ++ leBytes 4 (kernelAlign (40 + 4 * number)) ++ List.replicate 24 0 ++
    leBytes 8 (2 + 32 * 2 ^ 8 + 2 ^ 29 + number * 2 ^ 32))).mem

theorem sizeKept_integers : ∃ u', copyoutmsg (integers 1) (userOf []) 0 48 = .ok u' ∧
    SizeKept (integers 1) (userOf []) u' 0 := by
  have hok : (copyoutmsg (integers 1) (userOf []) 0 (msghSize (integers 1))).isOk = true := by
    decide
  cases h : copyoutmsg (integers 1) (userOf []) 0 (msghSize (integers 1)) with
  | error e =>
    rw [h] at hok
    cases hok
  | ok u' =>
    refine ⟨u', h, (sizeKept_iff h).mpr ⟨.inr ⟨rfl, ?_⟩, ?_⟩⟩
    · unfold NoBareEnd
      decide
    · decide

/-- An item without data at the end is not announced, and is written. -/
theorem integers_none : (msgUsize (integers 0)).toOption = some 24 ∧
    (copyoutmsg (integers 0) (userOf []) 0 40).toOption.map (fun u' => readLe u'.mem 4 4) = some 28 := by
  decide

end Mach.Ipc.CopyUser
