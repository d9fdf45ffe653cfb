import Sexp.Py.Runs

/-! # Calls keep trees consistent

Every write of a consistent tree leaves a consistent tree, when what it attaches is not above the
receiver and a sibling it names is a child of the receiver (`World.Writes.consistent`); every tree
that is created from consistent ones is consistent (`World.Creates.consistent`). -/

namespace Sexp

open Library (OrderedForest Answers)

variable {fuel : Nat} {w w' : World} {c : Call} {v : Value} {tree tree' : Tree} {h : Handle}
  {F : OrderedForest NodeId NodeType}

/-! ## Writes that keep the links -/

/-- Another text in an atom is another label in the forest. -/
theorem Tree.Represents.withValue (hF : tree.Represents F) {node : NodeId} (value : String)
    (hnode : tree.Live node) :
    (tree.withValue node value).Represents (F.setLabel node (.atom (Atom.new value))) := by
  intro id
  unfold Tree.withValue Tree.clearReprCache
  rw [Slab.get_update, hF id]
  by_cases hid : id = node
  · subst hid
    obtain ⟨kind, hkind⟩ := Option.isSome_iff_exists.mp (hF.live_iff.mp hnode)
    have hlabel : (F.setLabel id (.atom (Atom.new value))).label id =
        some (.atom (Atom.new value)) := if_pos rfl
    rw [hlabel, hkind]
    simp [nodeOf, OrderedForest.setLabel]
  · have hlabel : (F.setLabel node (.atom (Atom.new value))).label id = F.label id := if_neg hid
    rw [hlabel]
    simp only [if_neg hid, Option.map_id']
    rfl

/-- Assigning a value keeps a tree consistent. -/
theorem Tree.Consistent.withValue (hcons : tree.Consistent) {node : NodeId} (value : String)
    (hnode : tree.Live node) : (tree.withValue node value).Consistent := by
  obtain ⟨F, hF⟩ := hcons.exists_represents
  exact (hF.withValue value hnode).consistent (hcons.slab.update _ _)

/-! ## All writes -/

/-- **What a call must attach** for the tree to stay consistent: a child that is not above the
parent, or the parent itself, and behind a child of the parent. -/
def Attachment.Sane (tree : Tree) (parent : NodeId) (op : Attachment) (child : NodeId) : Prop :=
  ¬ tree.AncestorOrSelf child parent ∧ op.Fits tree parent child

/-- **Every write keeps a tree consistent**, when what it attaches is sane. -/
theorem World.Writes.consistent (hwrite : w.Writes fuel h tree c tree') (hcons : tree.Consistent)
    (hsane : ∀ op child, w.Attaching h tree c op child → op.run fuel tree h.node child = .ok tree' →
      op.Sane tree h.node child)
    (hfits : tree'.nodes.slots.length ≤ 2 ^ 32) : tree'.Consistent := by
  cases hwrite with
  | cache htext => exact hcons.of_nodes_eq rfl
  | value hn hatom => exact hcons.withValue _ (by rw [Tree.Live, hn]; rfl)
  | alloc hc halloc => exact halloc.consistent hcons hfits
  | attach hop hrun =>
      obtain ⟨hbelow, hop⟩ := hsane _ _ hop hrun
      exact (Attachment.run_moved hcons hbelow hop hrun).1
  | remove hc hne hremove => exact (remove_deleted hcons hremove).1.of_nodes_eq rfl

/-- **Every created tree is consistent**, when the trees that exist are. -/
theorem World.Creates.consistent (hcreate : w.Creates fuel c tree)
    (hcons : w.AllTrees Tree.Consistent) (hfits : tree.nodes.slots.length ≤ 2 ^ 32) :
    tree.Consistent := by
  refine hcreate.of_sources hcons (fun hnew => ?_) (fun s hparse => ?_)
    fun source n hsource hne hclone => ?_
  · cases hnew
    exact (wellFormed_single .list).toConsistent
  · exact (parse_wellFormed hparse hfits).1.toConsistent
  · exact (cloneSubtree_wellFormed hsource hne hclone).1.toConsistent

/-! ## Traversals of a consistent tree end -/

/-- Cloning a live node of a consistent tree ends. -/
theorem cloneSubtree_total (hcons : tree.Consistent) {n : NodeId} (hn : tree.Live n) :
    ∃ copy, Answers (fun fuel => cloneSubtree fuel tree n) copy := by
  by_cases hroot : n = tree.root
  · refine ⟨tree, .const fun fuel => ?_⟩
    rw [cloneSubtree, if_pos hroot]
    rfl
  · obtain ⟨F, hF⟩ := hcons.exists_represents
    obtain ⟨r, rfl, hr⟩ := F.exists_spans n
    obtain ⟨copy, hcopy, -⟩ := cloneSubtree_answers hF hr hn hroot
    exact ⟨copy, hcopy⟩

end Sexp
