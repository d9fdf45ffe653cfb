import Sexp.Py.Iteration

/-! # The version counts the mutations

The version of a tree is a `u64` that every successful call of `append`, `prepend`, `insert_after`,
`remove` and `extract` bumps, and no other call: from any state on, it has grown by the number of
these calls, modulo `2 ^ 64`. A handle that is not refreshed in between is therefore stale iff this
number is no multiple of `2 ^ 64`. -/

namespace Sexp

open Library (Run)

variable {w w' w₀ : World} {l : CallResult} {events : List ApiEvent} {e : ApiEvent} {t : ℕ}
  {tree tree' : Tree}

/-- The receiver of a call determines its handle and its tree. -/
theorem ApiEvent.Mutates.receiver_unique {self : HandleRef} {h : Handle} (hmutates : e.Mutates t)
    (hself : e.label.call.self? = some self) (hh : e.before.handles[self]? = some h) :
    h.tree = t := by
  obtain ⟨self', h', hself', hh', rfl⟩ := hmutates.receiver
  obtain rfl := Option.some.inj (hself.symm.trans hself')
  obtain rfl := Option.some.inj (hh.symm.trans hh')
  rfl

/-- **A mutation bumps the version of its tree by one.** -/
theorem ApiEvent.Mutates.version_eq (hmutates : e.Mutates t)
    (hstep : ApiStep e.before e.label e.after) (ht : e.before.trees[t]? = some tree)
    (ht' : e.after.trees[t]? = some tree') :
    tree'.version = tree.version + 1 ∧ tree'.root = tree.root := by
  obtain ⟨v, hv⟩ := hmutates.returns
  rcases hstep.cases with ⟨⟨err, herr⟩, -⟩ | ⟨fuel, v', -, heffect⟩
  · rw [hv] at herr
    cases herr
  obtain ⟨self, k, tree₁, tree₁', hself, hrec, hwrite, htree₁'⟩ :=
    heffect.writes_of_bumps hmutates.bumps
  obtain rfl := hmutates.receiver_unique hself hrec.handle_eq
  obtain rfl := Option.some.inj (ht.symm.trans hrec.tree_eq)
  obtain rfl := Option.some.inj (ht'.symm.trans htree₁')
  refine ⟨?_, hwrite.root_eq⟩
  rw [hwrite.version_eq, if_pos hmutates.bumps]

/-- **Every other event keeps the version.** -/
theorem ApiEvent.version_eq_of_not_mutates (hmutates : ¬ e.Mutates t)
    (hstep : ApiStep e.before e.label e.after) (ht : e.before.trees[t]? = some tree)
    (ht' : e.after.trees[t]? = some tree') :
    tree'.version = tree.version ∧ tree'.root = tree.root := by
  rcases hstep.cases with ⟨-, heq⟩ | ⟨fuel, v, hv, heffect⟩
  · rw [heq] at ht'
    obtain rfl := Option.some.inj (ht.symm.trans ht')
    exact ⟨rfl, rfl⟩
  obtain ⟨tree₁, ht₁, htree₁⟩ := heffect.tree_step ht
  obtain rfl := Option.some.inj (ht'.symm.trans ht₁)
  rcases htree₁ with rfl | ⟨self, h, hself, hrec, hsame, hwrite⟩
  · exact ⟨rfl, rfl⟩
  refine ⟨?_, hwrite.root_eq⟩
  rw [hwrite.version_eq, if_neg]
  exact fun hbumps => hmutates ⟨hbumps, ⟨v, hv⟩, self, h, hself, hrec.handle_eq, hsame⟩

/-- A tree is still there after a step. -/
theorem ApiStep.tree_stays (hstep : ApiStep w l w') (ht : w.trees[t]? = some tree) :
    ∃ tree', w'.trees[t]? = some tree' := by
  rcases hstep.cases with ⟨-, rfl⟩ | ⟨fuel, v, -, heffect⟩
  · exact ⟨tree, ht⟩
  · obtain ⟨tree', ht', -⟩ := heffect.tree_step ht
    exact ⟨tree', ht'⟩

open Classical in
/-- **The number of mutations** of a tree in some events. -/
noncomputable def mutations (t : ℕ) (events : List ApiEvent) : ℕ :=
  events.countP fun e => e.Mutates t

/-- The version after some events, and the root. -/
theorem version_of_run (hrun : Run ApiStep w₀ events w) (ht : w₀.trees[t]? = some tree) :
    ∃ tree', w.trees[t]? = some tree' ∧ tree'.root = tree.root ∧
      tree'.version = tree.version + UInt64.ofNat (mutations t events) := by
  induction hrun with
  | nil => exact ⟨tree, ht, rfl, by simp [mutations]⟩
  | @cons events s s' l run hstep ih =>
      obtain ⟨tree₁, ht₁, hroot, hversion⟩ := ih
      obtain ⟨tree', ht'⟩ := hstep.tree_stays ht₁
      refine ⟨tree', ht', ?_⟩
      by_cases hmutates : ApiEvent.Mutates t ⟨s, l, s'⟩
      · obtain ⟨hbumped, hroot'⟩ := hmutates.version_eq hstep ht₁ ht'
        refine ⟨hroot'.trans hroot, ?_⟩
        rw [mutations, List.countP_cons_of_pos (by simpa using hmutates), hbumped, hversion,
          UInt64.ofNat_add, UInt64.add_assoc]
        rfl
      · obtain ⟨hkept, hroot'⟩ := ApiEvent.version_eq_of_not_mutates hmutates hstep ht₁ ht'
        refine ⟨hroot'.trans hroot, ?_⟩
        rw [mutations, List.countP_cons_of_neg (by simpa using hmutates), hkept, hversion]
        rfl

/-- **The version counts the mutations, modulo `2 ^ 64`**, in every run from every state. A handle
to a node other than the root that is at the version of the state, and keeps it, is stale at the end
iff the number of mutations is no multiple of `2 ^ 64`. -/
theorem version_counts_mutations (hrun : Run ApiStep w₀ events w)
    (ht : w₀.trees[t]? = some tree) :
    ∃ tree', w.trees[t]? = some tree' ∧
      tree'.version.toNat = (tree.version.toNat + mutations t events) % 2 ^ 64 ∧
      ∀ h : Handle, h.version = tree.version → h.node ≠ tree.root →
        (h.isStale tree' = true ↔ ¬ 2 ^ 64 ∣ mutations t events) := by
  obtain ⟨tree', ht', hroot, hversion⟩ := version_of_run hrun ht
  refine ⟨tree', ht', ?_, fun h hh hnode => ?_⟩
  · rw [hversion]
    simp
  · have hwraps : tree.version = tree'.version ↔ 2 ^ 64 ∣ mutations t events := by
      rw [hversion, ← UInt64.toNat_inj]
      have hlt := tree.version.toNat_lt
      simp only [UInt64.toNat_add, UInt64.toNat_ofNat', Nat.add_mod_mod]
      omega
    rw [← hwraps, Handle.isStale, hh, hroot]
    simp [hnode]

/-- `version_counts_mutations` at the run `t = SExp(); l = t.new_list(); t.append(l)`, from `l` on:
the handle to `l` is one mutation behind. -/
theorem version_counts_mutations_nested :
    (⟨0, ⟨1⟩, 0⟩ : Handle).isStale nestedLists = true ↔
      ¬ 2 ^ 64 ∣ mutations 0 [⟨twoLists, ⟨.append 0 1, .ok .none⟩, nested⟩] := by
  obtain ⟨tree', ht', -, hstale⟩ := version_counts_mutations (t := 0) (.cons .nil step_nested)
    (rfl : twoLists.trees[0]? = some looseLists)
  obtain rfl : nestedLists = tree' := Option.some.inj ht'
  exact hstale ⟨0, ⟨1⟩, 0⟩ rfl (by decide)

end Sexp
