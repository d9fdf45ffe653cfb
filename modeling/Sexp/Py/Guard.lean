import Sexp.Py.Consistency
import Sexp.Serialize.Printing

/-! # The cycle guard over all runs

The guard decides whether the child is the parent or an ancestor of it, except in its blind spot: a
parentless child that is a proper ancestor of the parent, such as the root of the tree. In every run
in which no attachment is made from that blind spot, and every `insert_after` names a child of the
receiver other than the one it inserts, the trees stay consistent: the guard is exact on every other
pair of live nodes, parent chains are acyclic, and the traversals end (`guard_exact_of_run`). -/

namespace Sexp

open Library (Answers)

variable {events : List ApiEvent} {w : World}

/-- **The condition on an event**: it attaches nothing from the blind spot of the guard, and inserts
behind a child of the receiver only. -/
structure ApiEvent.Guarded (e : ApiEvent) : Prop where
  /-- The pair is outside of the blind spot, and a sibling fits. -/
  attaches : e.label.call.AttachesOnly
    (fun tree parent op child => ¬ tree.BlindSpot parent child ∧ op.Fits tree parent child) e.before
  /-- There are keys for all slots. -/
  small : e.after.Small

/-- **Trees stay consistent** in every run whose attachments are guarded. -/
theorem consistent_of_run (hrun : ApiRun events w) (hguarded : ∀ e ∈ events, e.Guarded) :
    w.AllTrees Tree.Consistent := by
  refine ApiRun.forall_tree hrun ?_ ?_ hguarded
  · intro e fuel self h tree tree' he hself hrec hwrite hmem hcons
    refine hwrite.consistent hcons (fun op child hop hrunop => ?_) (he.small tree' hmem)
    -- the guard has let the attachment pass, and it is not in the blind spot
    obtain ⟨hblind, hfits⟩ := he.attaches self h tree op child hself hrec hop
    exact ⟨not_ancestorOrSelf_of_guard (Attachment.run_guard hrunop) hblind, hfits⟩
  · intro e fuel tree he hcons hcreate hmem
    exact hcreate.consistent hcons (he.small tree hmem)

/-- **The cycle guard over all runs.** In every run whose attachments are guarded, in every tree:
the guard is exact on a pair of live nodes iff the pair is outside of the blind spot; no parent
chain is cyclic; serializing, cloning and removing any live node end. -/
theorem guard_exact_of_run (hrun : ApiRun events w) (hguarded : ∀ e ∈ events, e.Guarded) :
    w.AllTrees fun tree =>
      (∀ parent child, tree.Live parent → tree.Live child →
        (GuardExact tree parent child ↔ ¬ tree.BlindSpot parent child)) ∧
      (∀ id, ¬ Relation.TransGen tree.Edge id id) ∧
      ∀ n, tree.Live n →
        (∃ text, Answers (fun fuel => serializeNode fuel tree n) text) ∧
        (∃ copy, Answers (fun fuel => cloneSubtree fuel tree n) copy) ∧
        ∃ tree', Answers (fun fuel => remove fuel tree n) tree' := by
  intro tree htree
  have hcons : tree.Consistent := consistent_of_run hrun hguarded tree htree
  obtain ⟨F, hF⟩ := hcons.exists_represents
  refine ⟨fun parent child hp hc => guardExact_iff hF hp hc, hcons.acyclic, fun n hn => ?_⟩
  obtain ⟨form, hform⟩ := hcons.exists_denotes hn
  obtain ⟨tree', hremove, -⟩ := remove_consistent hcons hn
  exact ⟨⟨_, serializeNode_answers hform⟩, cloneSubtree_total hcons hn, tree', hremove⟩

/-- The run `t = SExp(); l = t.new_list(); t.append(l)` is guarded. -/
theorem eventsNested_guarded : ∀ e ∈ eventsNested, e.Guarded := by
  have hattaches := eventsNested_attachesOnly
    (fun tree parent op child => ¬ tree.BlindSpot parent child ∧ op.Fits tree parent child)
    ⟨fun hblind => Tree.not_ancestorOrSelf (by decide) rfl hblind.2.2, trivial⟩
  exact fun e he => ⟨hattaches e he, eventsNested_small e he⟩

/-- `guard_exact_of_run` at a list in a list. -/
theorem guard_exact_of_run_nested :
    (GuardExact nestedLists ⟨0⟩ ⟨1⟩ ↔ ¬ nestedLists.BlindSpot ⟨0⟩ ⟨1⟩) ∧
      (∀ id, ¬ Relation.TransGen nestedLists.Edge id id) ∧
      ∃ text, Answers (fun fuel => serializeNode fuel nestedLists ⟨0⟩) text := by
  obtain ⟨hguard, hacyclic, htotal⟩ := guard_exact_of_run run_nested eventsNested_guarded
    nestedLists List.mem_cons_self
  exact ⟨hguard ⟨0⟩ ⟨1⟩ rfl rfl, hacyclic, (htotal ⟨0⟩ rfl).1⟩

/-- **The guard is not exact in every state.** In the run `t = SExp(); l = t.new_list();
t.append(l)` it does not see that the root is an ancestor of the list. -/
theorem guard_not_exact : ¬ ∀ events w, ApiRun events w → w.AllTrees fun tree =>
    ∀ parent child, tree.Live parent → tree.Live child → GuardExact tree parent child := by
  intro hexact
  obtain ⟨answer, hanswer, hiff⟩ :=
    hexact eventsNested nested run_nested nestedLists List.mem_cons_self ⟨1⟩ ⟨0⟩ rfl rfl
  have hfalse : Answers (fun fuel => wouldCreateCycle fuel nestedLists ⟨1⟩ ⟨0⟩) false :=
    .const fun _ => rfl
  obtain rfl := hanswer.unique hfalse
  have hancestor : nestedLists.AncestorOrSelf ⟨0⟩ ⟨1⟩ := .single rfl
  simpa using hiff.mpr hancestor

end Sexp
