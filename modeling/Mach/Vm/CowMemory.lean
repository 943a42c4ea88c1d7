import Mach.Vm.CowSnapshot

/-!
# Objects are memories of their own

Shadow chains, copy objects, pages that are pushed and chains that are collapsed are there to
save copies. Seen from outside an object is an array of pages: after any run it shows what it
has shown before, but for the pages that were written through the object itself.
-/

namespace Mach.Vm.Cow

open Lib Lib.Overlay Function Option Heap

variable {V : Type} [Inhabited V] {held : Nat → Nat} {readOnly : Nat → Bool}

/-- What an action leaves at a place of the object `i` that has shown `v`. -/
def Action.leaves (i o : Nat) (v : V) : Action V → V
  | .write object offset data => if i = object ∧ o = offset then data else v
  | _ => v

theorem Heap.writeFault_own {h : Heap V} {i o : Nat} {obj : VmObject V} (hwf : h.WfIn held readOnly)
    (hobj : h.objects i = some obj) (hro : readOnly i = false) (d : V) {l' : Layer V}
    (hl' : (h.writeFault i o d).layers i = some l') :
    ∃ l, h.layers i = some l ∧ l'.size = l.size ∧ ∀ x < l.size, ∀ v, Sees h.layers default i x v →
      Sees (h.writeFault i o d).layers default i x (if x = o then d else v) := by
  obtain ⟨hq1, obj1, hobj1, hpage⟩ := ownPage_quiet hwf hobj
  obtain ⟨v, hv⟩ := isSome_iff_exists.mp hpage
  obtain ⟨hq2, hobj2, hcover⟩ := pushPage_quiet hq1.wf hobj1 hv
  have hq := hq1.trans hq2
  obtain ⟨l, hl, hsize, hkeep⟩ := hq.keeps i _ (layers_some hobj2)
  rw [writeFault, store, modify_eq hobj2] at hl' ⊢
  have hs := setGet_pages hobj2
    (obj1.memq.map fun p => if p.offset = o then { p with data := d } else p)
  cases hs.is.symm.trans hl'
  refine ⟨l, hl, hsize, fun x hx w hw => ?_⟩
  split
  next heq =>
    subst heq
    refine .here hs.is ?_
    show lookup (obj1.memq.map _) x = some d
    rw [lookup_store hpage, update_self]
  next hne =>
    refine Sees.write hs.was hs.is (lookup_store hpage) hs.below hs.offset hs.other ?_ (hkeep x hx w hw)
      fun _ => hne
    -- whatever lies over the object is its copy
    intro k m y hk hbelow hy
    have hc := hq.wf.alone k m i hk hbelow hro
    obtain ⟨_, m', _, hm', _, hoffset, _⟩ := hq.wf.copied i k hc
    cases hk.symm.trans hm'
    rw [copyOf_some hobj2] at hc
    rw [hoffset, Nat.add_zero] at hy
    exact hy ▸ hcover k m hc hk

def Sys.Shows (s : Sys V) (a : Action V) (heap : Heap V) : Prop :=
  s.heap.next ≤ heap.next ∧ ∀ i < s.heap.next, ∀ l', heap.layers i = some l' →
    ∃ l, s.heap.layers i = some l ∧ l'.size = l.size ∧ ∀ o < l.size, ∀ v,
      Sees s.heap.layers default i o v → Sees heap.layers default i o (a.leaves i o v)

theorem Heap.Quiet.shows {s : Sys V} {a : Action V} {heap : Heap V}
    (hq : Quiet s.held s.readOnly s.heap heap) (ha : ∀ i o v, a.leaves i o v = v) : s.Shows a heap := by
  refine ⟨hq.next.ge, fun i _ l' hl' => ?_⟩
  simpa only [ha] using hq.keeps i l' hl'

theorem Inv.shows {s s' : Sys V} {a : Action V} (h : Inv s) (heq : Cow.step s a = some s') :
    s.Shows a s'.heap := by
  cases a with
  | copyDelayed src =>
    obtain ⟨-, heq⟩ := ite_none_right_eq_some.mp heq
    obtain ⟨⟨c, heap⟩, hcopy, rfl⟩ := map_eq_some_iff.mp heq
    have hc := copyDelayed_copied h.wf hcopy
    refine ⟨hc.next, fun i hi l' hl' => ?_⟩
    obtain ⟨l, hl, hsize⟩ := hc.back i l' hl' hi
    exact ⟨l, hl, hsize, fun o _ v hv => hc.keeps i o v hv⟩
  | write object offset data =>
    obtain ⟨hok, ⟨⟩⟩ := ite_none_right_eq_some.mp heq
    obtain ⟨obj, hobj⟩ := h.exists_obj hok.1
    obtain ⟨-, hnext, hsees⟩ := writeFault_sees h.wf hobj hok.2 data
    refine ⟨hnext.ge, fun i _ l' hl' => ?_⟩
    by_cases hi : i = object
    · subst hi
      simpa only [Action.leaves, true_and] using writeFault_own h.wf hobj hok.2 data hl'
    · simpa only [Action.leaves, hi, false_and, if_false] using hsees i l' hl' hi
  | shortage object offset =>
    obtain ⟨hok, ⟨⟩⟩ := ite_none_right_eq_some.mp heq
    obtain ⟨obj, hobj⟩ := h.exists_obj hok.1
    exact (ownPage_quiet h.wf hobj).1.shows fun _ _ _ => rfl
  | read object offset =>
    obtain ⟨hok, ⟨⟩⟩ := ite_none_right_eq_some.mp heq
    obtain ⟨obj, hobj⟩ := h.exists_obj hok
    exact (readFault_quiet h.wf hobj).shows fun _ _ _ => rfl
  | shadow source offset length =>
    rw [Cow.step] at heq
    split at heq
    · cases heq
    rename_i obj hobj
    obtain ⟨hok, ⟨⟩⟩ := ite_none_right_eq_some.mp heq
    obtain ⟨-, hother⟩ := shadow_wf h.wf hobj hok.1 hok.2.1 hok.2.2
    refine ⟨Nat.le_succ _, fun i hi l' hl' => ⟨l', (hother i hi.ne).symm.trans hl', rfl, fun o _ v hv => ?_⟩⟩
    refine Sees.mono (fun j m hm => ?_) hv
    exact (hother j (h.wf.ne_next (by rw [hm]; rfl))).trans hm
  | collapse object =>
    cases heq
    exact (collapse_quiet h.wf).1.shows fun _ _ _ => rfl

/-- **Objects are memories of their own.** Whatever is copied, shadowed, faulted in or
collapsed in a run, an object shows at its end what it has shown at the start, but for the
pages that were written through it. -/
theorem contents_after_run {s : Sys V} (hs : (lts V).Reach anyStep s) (as : List (Action V)) :
    ∀ s', (lts V).run s as = some s' → ∀ i < s.heap.next, ∀ obj', s'.heap.objects i = some obj' →
      ∃ obj, s.heap.objects i = some obj ∧ obj'.size = obj.size ∧ ∀ o < obj.size,
        s'.heap.contents i o = as.foldl (fun v a => a.leaves i o v) (s.heap.contents i o) := by
  induction as generalizing s with
  | nil =>
    rintro s' ⟨⟩ i - obj' hobj'
    exact ⟨obj', hobj', rfl, fun _ _ => rfl⟩
  | cons a as ih =>
    intro s' hrun i hi obj' hobj'
    rw [Lts.run] at hrun
    split at hrun
    · cases hrun
    next s1 hstep =>
      have hs1 := hs.next trivial hstep
      have hinv : ∀ {t : Sys V}, (lts V).Reach anyStep t → Inv t :=
        fun ht => ht.inv (I := Inv) (fun _ h => Inv.init h) fun _ a _ h _ heq => h.step a heq
      obtain ⟨hnext, hshows⟩ := (hinv hs).shows hstep
      obtain ⟨obj1, hobj1, hsize1, hrest⟩ := ih hs1 s' hrun i (hi.trans_le hnext) obj' hobj'
      obtain ⟨l, hl, hsize, hsees⟩ := hshows i hi _ (layers_some hobj1)
      obtain ⟨obj, hobj, rfl⟩ := layers_eq_some hl
      refine ⟨obj, hobj, hsize1.trans hsize, fun o ho => ?_⟩
      have hbefore := sees_contents (hinv hs).wf (isSome_layers hobj) o
      have hafter := sees_contents (hinv hs1).wf (isSome_layers hobj1) o
      rw [hrest o (Nat.lt_of_lt_of_eq ho hsize.symm), hafter.unique (hsees o ho _ hbefore)]
      rfl

/-- The object is copied and written; its copy is shadowed, and the shadow written and collapsed. -/
theorem contents_after_run_twoPages :
    ∃ s, (lts Nat).run twoPages [.copyDelayed 0, .write 0 0 99, .shadow 1 0 2, .write 2 1 55,
        .collapse 2] = some s ∧ s.heap.contents 0 0 = 99 ∧ s.heap.contents 0 1 = 11 := by
  have hsome : (((lts Nat).run twoPages [.copyDelayed 0, .write 0 0 99, .shadow 1 0 2, .write 2 1 55,
      .collapse 2]).bind fun s => s.heap.objects 0).isSome := by decide
  obtain ⟨obj', hobj'⟩ := isSome_iff_exists.mp hsome
  obtain ⟨s, hrun, hobj'⟩ := bind_eq_some_iff.mp hobj'
  obtain ⟨obj, hobj, -, hcontents⟩ :=
    contents_after_run (.start twoPages_init) _ s hrun 0 Nat.zero_lt_one obj' hobj'
  cases hobj
  exact ⟨s, hrun, hcontents 0 (by decide), hcontents 1 (by decide)⟩

end Mach.Vm.Cow
