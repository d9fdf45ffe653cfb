import Sexp.Core.LeafAtoms
import Sexp.Py.Cache
import Sexp.Py.Equality

/-! # Copies are faithful

`clone_subtree` copies the root by copying its whole tree, an atom by making a single node, and any
other list by rebuilding it below a new root. In a well-formed tree with leaf atoms all three give a
well-formed tree whose root is structurally equal to the node and has its text; and a copy of a
node other than the root has a parentless root, and one node for each node of the subtree
(`clone_faithful`). -/

namespace Sexp

open Library (OrderedForest Form Answers)

variable {tree copy : Tree} {n : NodeId} {form : Form String}

/-! ## What a copy is -/

/-- **A faithful copy of a node**: a well-formed tree whose root has the form and the text of the
node. -/
structure Tree.FaithfulCopy (tree copy : Tree) (n : NodeId) : Prop where
  /-- The copy is well-formed. -/
  wellFormed : copy.WellFormed
  /-- Atoms of the copy are leaves. -/
  leafAtoms : copy.LeafAtoms
  /-- The root of the copy shows what the node shows. -/
  form : ∃ form, tree.Shows n form ∧ copy.Shows copy.root form
  /-- The root of the copy equals the node. -/
  equal : Answers (fun fuel => subtreesEqual fuel tree n copy copy.root) true
  /-- The root of the copy has the text of the node. -/
  repr : ∃ text, Answers (fun fuel => uncachedRepr fuel tree n) text ∧
    Answers (fun fuel => uncachedRepr fuel copy copy.root) text
  /-- The cache of the copy is valid if the one of the tree is. -/
  cache : tree.CacheValid → copy.CacheValid

/-- **A copy has one node for each node of a subtree**: the nodes of the subtree and the live nodes
of the copy can be listed so that nodes at the same place denote the same form. -/
def Tree.NodeByNode (tree copy : Tree) (n : NodeId) : Prop :=
  ∃ nodes copies : List NodeId,
    (nodes.Nodup ∧ ∀ m, m ∈ nodes ↔ tree.AncestorOrSelf n m) ∧
    (copies.Nodup ∧ (∀ m, m ∈ copies ↔ copy.Live m) ∧ copy.len = copies.length) ∧
    List.Forall₂ (fun m m' => ∃ part, tree.Denotes m part ∧ copy.Denotes m' part) nodes copies

/-! ## Both paths -/

/-- The root is copied by copying its tree. -/
theorem Tree.WellFormed.faithfulCopy_self (hwf : tree.WellFormed) (hleaf : tree.LeafAtoms) :
    tree.FaithfulCopy tree tree.root := by
  obtain ⟨form, hshows⟩ := hwf.toConsistent.shows hleaf hwf.root_live
  obtain ⟨text, htext⟩ := uncachedRepr_total hwf.toConsistent hwf.root_live
  constructor
  case wellFormed => exact hwf
  case leafAtoms => exact hleaf
  case form => exact ⟨form, hshows, hshows⟩
  case equal => exact subtreesEqual_of_denotes hshows.denotes hshows.denotes
  case repr => exact ⟨text, htext, htext⟩
  case cache => exact fun hcache => hcache

/-- The text of a node other than the root is the text of its form. -/
theorem uncachedRepr_of_ne_root (hform : tree.Denotes n form) (hne : n ≠ tree.root) :
    Answers (fun fuel => uncachedRepr fuel tree n) (print form) := by
  obtain ⟨m, hm⟩ := Option.isSome_iff_exists.mp hform.live
  have hanswers := uncachedRepr_answers hform hm
  rwa [if_neg fun hbare => hne hbare.2.1] at hanswers

/-- The text of a node of a tree that is not bare is the text of its form. -/
theorem uncachedRepr_of_not_bare (hform : tree.Denotes n form) (hbare : tree.bare = false) :
    Answers (fun fuel => uncachedRepr fuel tree n) (print form) := by
  obtain ⟨m, hm⟩ := Option.isSome_iff_exists.mp hform.live
  have hanswers := uncachedRepr_answers hform hm
  rwa [if_neg fun h => Bool.false_ne_true (hbare.symm.trans h.1)] at hanswers

/-- **A node other than the root is rebuilt** in a new tree, node by node. -/
theorem cloneSubtree_faithful (hcons : tree.Consistent) (hleaf : tree.LeafAtoms)
    (hn : tree.Live n) (hne : n ≠ tree.root) :
    ∃ copy, Answers (fun fuel => cloneSubtree fuel tree n) copy ∧ tree.FaithfulCopy copy n ∧
      copy.parentOf copy.root = none ∧ tree.NodeByNode copy n := by
  obtain ⟨F, hF⟩ := hcons.exists_represents
  obtain ⟨r, rfl, hr⟩ := F.exists_spans n
  obtain ⟨copy, hanswers, hcopy⟩ := cloneSubtree_answers hF hr hn hne
  have hrose : LeafRose (r.map F.label) := leafRose_of_spans (hF.leafAtoms_iff.mp hleaf) hr
  rw [copied_of_leafRose hrose] at hcopy
  -- the node and the root of the copy show the same form
  have hshows : tree.Shows r.root (formOf F.label r) := hF.shows hr (hF.live_iff.mp hn) hrose
  have hshows' : copy.Shows copy.root (formOf F.label r) := hcopy.shows hrose
  refine ⟨copy, hanswers, ?_, hcopy.root_parentless, ?_⟩
  · constructor
    case wellFormed => exact hcopy.wellFormed
    case leafAtoms => exact hcopy.leafAtoms hrose
    case form => exact ⟨_, hshows, hshows'⟩
    case equal => exact subtreesEqual_of_denotes hshows.denotes hshows'.denotes
    case repr =>
      exact ⟨_, uncachedRepr_of_ne_root hshows.denotes hne,
        uncachedRepr_of_not_bare hshows'.denotes hcopy.bare_eq⟩
    case cache => exact fun _ => .of_none hcopy.wellFormed.slab hcopy.reprCache_eq
  · obtain ⟨nodes, hnodup, hmem, hforms⟩ := hshows.parts
    obtain ⟨copies, hnodup', hmem', hforms'⟩ := hshows'.parts
    have hboth := forall₂_of_common hforms hforms'
    refine ⟨nodes, copies, ⟨hnodup, hmem⟩, ⟨hnodup', fun m => ?_, ?_⟩, hboth⟩
    · rw [hmem', hcopy.live_iff]
    · -- the subtree has as many nodes as the rose tree that is copied
      have hperm : r.ids.Perm nodes := by
        refine (List.perm_ext_iff_of_nodup (F.nodup_ids hr) hnodup).mpr fun m => ?_
        rw [hmem, hF.ancestorOrSelf_iff, OrderedForest.mem_ids_iff_mem_subtree hr]
      rw [hcopy.len_eq, hperm.length_eq, hboth.length_eq]

/-- **`clone_subtree` is a faithful deep copy** on all its paths: for every live node of a
well-formed tree with leaf atoms it returns a well-formed tree whose root is structurally equal to
the node and has its text. When the node is not the root, the root of the copy has no parent, and
the copy has one node for each node of the subtree. -/
theorem clone_faithful (hwf : tree.WellFormed) (hleaf : tree.LeafAtoms) (hn : tree.Live n) :
    ∃ copy, Answers (fun fuel => cloneSubtree fuel tree n) copy ∧ tree.FaithfulCopy copy n ∧
      (n ≠ tree.root → copy.parentOf copy.root = none ∧ tree.NodeByNode copy n) := by
  by_cases hroot : n = tree.root
  · subst hroot
    refine ⟨tree, .const fun fuel => ?_, hwf.faithfulCopy_self hleaf, fun hne => absurd rfl hne⟩
    rw [cloneSubtree, if_pos rfl]
    rfl
  · obtain ⟨copy, hanswers, hfaithful, hparent, hnodes⟩ :=
      cloneSubtree_faithful hwf.toConsistent hleaf hn hroot
    exact ⟨copy, hanswers, hfaithful, fun _ => ⟨hparent, hnodes⟩⟩

/-- `clone_faithful` at the list `(a (b))` of `mixedTree`. -/
theorem clone_faithful_mixedTree :
    ∃ copy, Answers (fun fuel => cloneSubtree fuel mixedTree ⟨1⟩) copy ∧
      Answers (fun fuel => uncachedRepr fuel copy copy.root) "(a (b))" ∧
      mixedTree.FaithfulCopy copy ⟨1⟩ ∧ copy.parentOf copy.root = none ∧
      mixedTree.NodeByNode copy ⟨1⟩ := by
  have hlive : mixedTree.Live ⟨1⟩ := rfl
  obtain ⟨copy, hanswers, hfaithful, hnew⟩ :=
    clone_faithful mixedTree_wellFormed mixedTree_leafAtoms hlive
  obtain ⟨text, htext, htext'⟩ := hfaithful.repr
  have hprinted : uncachedRepr 20 mixedTree ⟨1⟩ = .ok "(a (b))" := by decide +kernel
  obtain rfl := htext.eq_of_ok (uncachedRepr_mono _ _) hprinted
  exact ⟨copy, hanswers, htext', hfaithful, hnew (by decide)⟩

end Sexp
