import Sexp.Py.Runs

/-! # Stale arguments of the attaching calls

Of the three handles that an attaching call names, the receiver and the sibling of `insert_after`
are checked for staleness; the child is not. The call raises for a stale handle exactly when one of
the two that are checked is stale (`attach_rejected_iff`), whatever has become of the node of the
child. A handle whose slot has been freed and given to another node moves that node. -/

namespace Sexp

open Library (Answers)

variable {α : Type} {w w' : World} {self child : HandleRef} {h x a : Handle} {tree : Tree}

/-! ## The checks of the attaching calls -/

/-- The handles that an attaching call names: the receiver, the sibling if there is one, and the
child. -/
def Call.attachment? : Call → Option (HandleRef × Option HandleRef × HandleRef)
  | .append self child | .prepend self child => some (self, none, child)
  | .insertAfter self after child => some (self, after, child)
  | _ => none

/-- **The slot of a handle has been freed** since the handle was created: some later call has found
it occupied and left it empty. -/
def Removed (events : List ApiEvent) (ref : HandleRef) : Prop :=
  ∃ e ∈ events, ∃ h tree tree', e.before.handles[ref]? = some h ∧
    e.before.trees[h.tree]? = some tree ∧ e.after.trees[h.tree]? = some tree' ∧
    tree.Live h.node ∧ ¬ tree'.Live h.node

/-- **A call is rejected** when it raises the exception for stale handles and changes nothing. -/
def Rejected (w : World) (c : Call) : Prop :=
  Answers (fun fuel => call fuel c w) (.error staleError, w)

namespace SExp

/-- **A method that writes its tree and whose code does not raise** raises exactly for a stale
receiver. -/
theorem withTreeMut_rejected_iff {g : ℕ → Tree → NodeId → Exec (Except PyErr α × Tree)}
    (hself : w.handles[self]? = some h) (htree : w.trees[h.tree]? = some tree)
    (hg : ∀ fuel e tree', g fuel tree h.node ≠ .ok (.error e, tree')) :
    Answers (fun fuel => withTreeMut self (g fuel) w) (.error staleError, w) ↔
      h.isStale tree = true := by
  constructor
  · intro hanswers
    obtain ⟨fuel, hraise⟩ := hanswers.exists_fuel
    by_contra hfresh
    obtain ⟨tree', herror⟩ :=
      error_of_withTreeMut hself htree (Bool.eq_false_iff.mpr hfresh) hraise
    exact hg fuel _ _ herror
  · intro hstale
    exact .const fun fuel => withTreeMut_of_stale hself htree hstale

end SExp

/-! ## A slot that is reused -/

/-- `singleList` after `l = t.new_list(); l.remove()`. -/
def freedList : Tree where
  nodes := ⟨[some Node.newList, none], [1]⟩
  root := ⟨0⟩
  version := 1
  bare := false
  reprCache := none

/-- The objects after `l.remove()`. -/
def afterRemove : World := ⟨[freedList], [⟨0, ⟨0⟩, 0⟩, ⟨0, ⟨1⟩, 0⟩], []⟩

/-- `l.remove()` in `twoLists`. -/
theorem step_afterRemove : ApiStep twoLists ⟨.remove 1, .ok .none⟩ afterRemove := ⟨2, rfl⟩

/-- The objects after `z = t.new_list()`, which reuses the slot of `l`. -/
def afterReuse : World :=
  ⟨[{ looseLists with version := 1 }], [⟨0, ⟨0⟩, 1⟩, ⟨0, ⟨1⟩, 0⟩, ⟨0, ⟨1⟩, 1⟩], []⟩

/-- `z = t.new_list()` after the removal. -/
theorem step_afterReuse : ApiStep afterRemove ⟨.newList 0, .ok (.sexp 2)⟩ afterReuse := ⟨0, rfl⟩

/-- The events of the run `t = SExp(); l = t.new_list(); l.remove(); z = t.new_list()`. -/
def eventsReuse : List ApiEvent :=
  ⟨afterRemove, ⟨.newList 0, .ok (.sexp 2)⟩, afterReuse⟩ ::
    ⟨twoLists, ⟨.remove 1, .ok .none⟩, afterRemove⟩ :: eventsTwoLists

/-- The run `t = SExp(); l = t.new_list(); l.remove(); z = t.new_list()`. -/
theorem run_reuse : ApiRun eventsReuse afterReuse :=
  (run_twoLists.cons step_afterRemove).cons step_afterReuse

/-! ## When an attaching call is rejected -/

/-- A mapped method answers an exception when the method does. -/
theorem answers_map_error {β : Type} {x : ℕ → PyM α} {g : α → β} {e : PyErr} :
    Answers (fun fuel => (g <$> x fuel) w) (.error e, w') ↔
      Answers (fun fuel => x fuel w) (.error e, w') := by
  constructor
  · rintro ⟨bound, hbound⟩
    exact ⟨bound, fun fuel hle => PyM.map_eq_error.mp (hbound fuel hle)⟩
  · rintro ⟨bound, hbound⟩
    exact ⟨bound, fun fuel hle => PyM.map_eq_error.mpr (hbound fuel hle)⟩

/-- **When an attaching call is rejected**, in every state: iff its sibling, if there is one,
belongs to the tree of the receiver, and the receiver or the sibling is stale. The child, which
belongs to the tree as well, may be any handle, be its node live or removed. -/
theorem attach_rejected_iff {c : Call} {after : Option HandleRef}
    (hc : c.attachment? = some (self, after, child)) (hexists : c.Exists w)
    (hself : w.handles[self]? = some h) (htree : w.trees[h.tree]? = some tree)
    (hchild : w.handles[child]? = some x) (hsame : h.tree = x.tree) :
    Rejected w c ↔
      (∀ ref a, after = some ref → w.handles[ref]? = some a → h.tree = a.tree) ∧
      (h.isStale tree = true ∨
        ∃ ref a, after = some ref ∧ w.handles[ref]? = some a ∧ a.isStale tree = true) := by
  unfold Rejected
  cases c with
  | append s r =>
      cases hc
      simp only [call, answers_map_error, SExp.append, SExp.sameTree_apply hself hchild hsame]
      rw [SExp.withTreeMut_rejected_iff hself htree fun _ _ _ => returns_ne_error]
      simp
  | prepend s r =>
      cases hc
      simp only [call, answers_map_error, SExp.prepend, SExp.sameTree_apply hself hchild hsame]
      rw [SExp.withTreeMut_rejected_iff hself htree fun _ _ _ => returns_ne_error]
      simp
  | insertAfter s after r =>
      cases hc
      simp only [call, answers_map_error, SExp.insertAfter,
        SExp.sameTree_apply hself hchild hsame]
      rcases after with _ | ref
      · -- there is no sibling to check
        have hnone : SExp.afterHandle h.tree none w = .ok (.ok none, w) := rfl
        simp only [PyM.bind_of_ok hnone]
        rw [SExp.withTreeMut_rejected_iff hself htree fun _ _ _ => returns_ne_error]
        simp
      · have hlt : ref < w.handles.length := hexists.1 ref (by simp [Call.handles])
        obtain ⟨a, ha⟩ : ∃ a, w.handles[ref]? = some a := ⟨_, List.getElem?_eq_getElem hlt⟩
        by_cases htrees : h.tree = a.tree
        · simp only [PyM.bind_of_ok (SExp.afterHandle_apply ha htrees)]
          have hsibling : ∀ ref' a', some ref = some ref' → w.handles[ref']? = some a' →
              h.tree = a'.tree := by
            rintro _ a' ⟨rfl⟩ ha'
            obtain rfl := Option.some.inj (ha.symm.trans ha')
            exact htrees
          rcases hstale : a.isStale tree
          · -- the sibling is fresh: only the receiver counts
            rw [SExp.withTreeMut_rejected_iff hself htree fun fuel e tree' => by
              simp only [Option.any_some, hstale, if_neg Bool.false_ne_true]
              exact returns_ne_error]
            constructor
            · exact fun hself' => ⟨hsibling, .inl hself'⟩
            · rintro ⟨-, hself' | ⟨_, a', ⟨rfl⟩, ha', hstale'⟩⟩
              · exact hself'
              · obtain rfl := Option.some.inj (ha.symm.trans ha')
                simp [hstale] at hstale'
          · -- the sibling is stale: the call is rejected in any case
            refine iff_of_true (.const fun fuel => ?_) ⟨hsibling, .inr ⟨ref, a, rfl, ha, hstale⟩⟩
            rcases hself' : h.isStale tree
            · refine SExp.withTreeMut_of_error hself htree hself' ?_
              simp only [Option.any_some, hstale, if_pos]
              rfl
            · exact SExp.withTreeMut_of_stale hself htree hself'
        · -- a sibling of another tree is another error
          refine iff_of_false (fun hanswers => ?_) fun hcond => htrees (hcond.1 ref a rfl ha)
          obtain ⟨fuel, hraise⟩ := hanswers.exists_fuel
          rw [PyM.bind_of_error (SExp.afterHandle_raise ha htrees)] at hraise
          simp [staleError] at hraise
  | _ => cases hc

/-- `attach_rejected_iff` in `afterReuse`, where `l` is stale: it is rejected as the receiver and as
the sibling, and accepted as the child. -/
theorem attach_rejected_iff_reuse :
    Rejected afterReuse (.append 1 2) ∧ Rejected afterReuse (.insertAfter 0 (some 1) 2) ∧
      ¬ Rejected afterReuse (.append 0 1) := by
  have ht : afterReuse.handles[0]? = some ⟨0, ⟨0⟩, 1⟩ := rfl
  have hl : afterReuse.handles[1]? = some ⟨0, ⟨1⟩, 0⟩ := rfl
  have hz : afterReuse.handles[2]? = some ⟨0, ⟨1⟩, 1⟩ := rfl
  have htree : afterReuse.trees[0]? = some { looseLists with version := 1 } := rfl
  refine ⟨?_, ?_, fun hrejected => ?_⟩
  · refine (attach_rejected_iff rfl ?_ hl htree hz rfl).mpr ⟨fun _ _ hafter => ?_, .inl rfl⟩
    · simp [Call.Exists, Call.handles, Call.iters, afterReuse]
    · cases hafter
  · refine (attach_rejected_iff rfl ?_ ht htree hz rfl).mpr
      ⟨fun ref a hafter ha => ?_, .inr ⟨1, _, rfl, hl, rfl⟩⟩
    · simp [Call.Exists, Call.handles, Call.iters, afterReuse]
    · cases hafter
      obtain rfl := Option.some.inj (hl.symm.trans ha)
      rfl
  · have hexists : (Call.append 0 1).Exists afterReuse := by
      simp [Call.Exists, Call.handles, Call.iters, afterReuse]
    obtain ⟨-, hstale | ⟨ref, a, hafter, -⟩⟩ :=
      (attach_rejected_iff rfl hexists ht htree hl rfl).mp hrejected
    · cases hstale
    · cases hafter

/-! ## A removed handle moves another node -/

/-- **A removed handle is accepted as a child.** In the run `t = SExp(); l = t.new_list();
l.remove(); z = t.new_list()`, the call `t.append(l)` is not rejected: it moves `z`. -/
theorem removed_child_accepted : ¬ ∀ events w, ApiRun events w →
    ∀ c self after child h x, c.attachment? = some (self, after, child) → c.Exists w →
      w.handles[self]? = some h → w.handles[child]? = some x → h.tree = x.tree →
      Removed events child → Rejected w c := by
  intro hreject
  have hexists : (Call.append 0 1).Exists afterReuse := by simp [Call.Exists, Call.handles,
    Call.iters, afterReuse]
  -- the removal has freed the slot of `l`
  have hremoved : Removed eventsReuse 1 := by
    refine ⟨⟨twoLists, ⟨.remove 1, .ok .none⟩, afterRemove⟩, by simp [eventsReuse],
      ⟨0, ⟨1⟩, 0⟩, looseLists, freedList, rfl, rfl, rfl, rfl, ?_⟩
    exact Bool.false_ne_true
  obtain ⟨fuel, hraise⟩ := (hreject _ _ run_reuse (.append 0 1) 0 none 1 _ _ rfl hexists rfl rfl rfl
    hremoved).exists_fuel
  obtain ⟨w', hreturn⟩ : ∃ w', call fuel (.append 0 1) afterReuse = .ok (.ok .none, w') := ⟨_, rfl⟩
  rw [hraise] at hreturn
  cases hreturn

end Sexp
