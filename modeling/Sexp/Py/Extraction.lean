import Mathlib.Data.Set.Card
import Sexp.Core.Contract
import Sexp.Py.Copies

/-! # Extracting conserves the document

`extract_subtree` copies the subtree of a node into a new tree and then removes it. In a well-formed
tree with leaf atoms and a parentless root nothing is lost and nothing is kept twice: the new tree
is a faithful copy of the subtree, the old one is the tree without it, and every node of the old
tree is in exactly one of the two (`extract_conserves`). -/

namespace Sexp

open Library (OrderedForest Answers)

variable {tree tree' copy : Tree} {n : NodeId}

/-! ## The tree that is left -/

/-- **A tree without a subtree**: its nodes are those outside the subtree, which keep their content,
their parent and the order of their children; the former parent has lost the node. -/
structure Tree.Without (tree tree' : Tree) (n : NodeId) : Prop where
  /-- The tree that is left is well-formed. -/
  wellFormed : tree'.WellFormed
  /-- Its atoms are leaves. -/
  leafAtoms : tree'.LeafAtoms
  /-- The root stays. -/
  root_eq : tree'.root = tree.root
  /-- The live nodes are those outside the subtree. -/
  live_iff : ∀ m, tree'.Live m ↔ tree.Live m ∧ ¬ tree.AncestorOrSelf n m
  /-- A node outside keeps its content, its parent, and its children other than the node. -/
  outside : ∀ m node l, tree.nodes.get m = some node → tree.IsChildList m node l →
    ¬ tree.AncestorOrSelf n m →
    ∃ node', tree'.nodes.get m = some node' ∧ node'.kind = node.kind ∧
      node'.parent = node.parent ∧
      tree'.IsChildList m node' (if tree.parentOf n = some m then l.erase n else l)

/-- What deleting a subtree makes of a node outside. -/
theorem Tree.Deleted.outside (hdeleted : tree.Deleted tree' n) {m : NodeId} {node : Node}
    {l : List NodeId} (hm : tree.nodes.get m = some node) (hl : tree.IsChildList m node l)
    (houtside : ¬ tree.AncestorOrSelf n m) :
    ∃ node', tree'.nodes.get m = some node' ∧ node'.kind = node.kind ∧
      node'.parent = node.parent ∧
      tree'.IsChildList m node' (if tree.parentOf n = some m then l.erase n else l) := by
  obtain ⟨F, G, hF, hG, -, hrest⟩ := hdeleted
  rw [hF.ancestorOrSelf_iff] at houtside
  obtain ⟨hlabel, hparent, hchildren⟩ := hrest m houtside
  obtain ⟨hkind, heq⟩ := hF.eq_nodeOf hm
  have hm' : tree'.nodes.get m = some (nodeOf G m node.kind) := by
    rw [hG m, hlabel, hkind]
    rfl
  refine ⟨_, hm', rfl, ?_, ?_⟩
  · rw [heq]
    exact hparent
  · -- a node has one list of children
    obtain rfl : l = F.children m := hl.forward.unique (hF.isChildList hm).forward
    have hlist := hG.isChildList hm'
    rw [hchildren] at hlist
    split
    · exact hlist
    · rename_i hother
      rw [hF.parentOf_eq, ← F.mem_children] at hother
      rwa [List.erase_of_not_mem hother] at hlist

/-! ## Counting -/

/-- The elements with a property are as many as a list of them without repetition. -/
theorem ncard_of_mem_iff {P : NodeId → Prop} {l : List NodeId} (hnodup : l.Nodup)
    (hmem : ∀ m, m ∈ l ↔ P m) : {m | P m}.ncard = l.length := by
  have hset : {m | P m} = ↑l.toFinset := by
    ext m
    rw [Finset.mem_coe, List.mem_toFinset, hmem]
    rfl
  rw [hset, Set.ncard_coe_finset, List.toFinset_card_of_nodup hnodup]

/-- What is below a live node is live. -/
theorem Tree.Consistent.live_below (hcons : tree.Consistent) (hn : tree.Live n) {m : NodeId}
    (hbelow : tree.AncestorOrSelf n m) : tree.Live m := by
  obtain ⟨F, hF⟩ := hcons.exists_represents
  rw [hF.ancestorOrSelf_iff] at hbelow
  exact hF.live_iff.mpr (OrderedForest.live_of_mem_subtree (hF.live_iff.mp hn) hbelow)

/-- **The live nodes of a tree** are those of the tree without a subtree, and those of the
subtree. -/
theorem Tree.Without.ncard_live (hwithout : tree.Without tree' n) (hcons : tree.Consistent)
    (hn : tree.Live n) (hcopy : tree.NodeByNode copy n) :
    {m | tree.Live m}.ncard = {m | tree'.Live m}.ncard + {m | copy.Live m}.ncard := by
  obtain ⟨nodes, copies, ⟨hnodup, hmem⟩, ⟨hnodup', hmem', -⟩, hboth⟩ := hcopy
  have hsplit : {m | tree.Live m} = {m | tree'.Live m} ∪ {m | tree.AncestorOrSelf n m} := by
    ext m
    show tree.Live m ↔ tree'.Live m ∨ tree.AncestorOrSelf n m
    rw [hwithout.live_iff]
    constructor
    · intro hm
      by_cases hbelow : tree.AncestorOrSelf n m
      · exact .inr hbelow
      · exact .inl ⟨hm, hbelow⟩
    · rintro (⟨hm, -⟩ | hbelow)
      · exact hm
      · exact hcons.live_below hn hbelow
  have hdisjoint : Disjoint {m | tree'.Live m} {m | tree.AncestorOrSelf n m} := by
    rw [Set.disjoint_left]
    intro m hm hbelow
    exact ((hwithout.live_iff m).mp hm).2 hbelow
  rw [hsplit, Set.ncard_union_eq hdisjoint, ncard_of_mem_iff hnodup hmem,
    ncard_of_mem_iff hnodup' hmem', hboth.length_eq]

/-! ## Extracting -/

/-- **What removing a node leaves** is the tree without its subtree; one node is freed for each node
of a copy. -/
theorem remove_without (hwf : tree.WellFormed) (hleaf : tree.LeafAtoms) (hn : tree.Live n)
    (hroot : ¬ tree.AncestorOrSelf n tree.root) (hcopy : tree.NodeByNode copy n) :
    ∃ tree', Answers (fun fuel => remove fuel tree n) tree' ∧ tree.Without tree' n ∧
      tree.len = tree'.len + copy.len := by
  obtain ⟨tree', hanswers, hwf', hdeleted, hlive⟩ := remove_contract hwf hn hroot
  obtain ⟨fuel, hfuel⟩ := hanswers.exists_fuel
  refine ⟨tree', hanswers, ?_, ?_⟩
  · constructor
    case wellFormed => exact hwf'
    case leafAtoms => exact hdeleted.leafAtoms hleaf
    case root_eq => rw [remove_sameFrame hfuel]
    case live_iff => exact hlive
    case outside => exact fun m node l hm hl houtside => hdeleted.outside hm hl houtside
  · obtain ⟨nodes, copies, ⟨hnodup, hmem⟩, ⟨-, -, hlen⟩, hboth⟩ := hcopy
    obtain ⟨F, hF⟩ := hwf.toConsistent.exists_represents
    have hfreed : tree'.len + nodes.length = tree.len := by
      refine remove_len hF hwf.slab hn hanswers hnodup fun m => ?_
      rw [hmem, hF.ancestorOrSelf_iff]
    rw [hlen, ← hboth.length_eq, hfreed]

/-- **Extracting conserves the document.** For every live node of a well-formed tree with leaf atoms
other than its parentless root, `extract_subtree` returns a faithful copy of the subtree of the
node, with a parentless root and one node for each node of the subtree, and leaves the tree without
this subtree; the live nodes before are those that are left and those of the copy. -/
theorem extract_conserves (hwf : tree.WellFormed) (hleaf : tree.LeafAtoms)
    (hroot : tree.parentOf tree.root = none) (hn : tree.Live n) (hne : n ≠ tree.root) :
    ∃ tree' copy, Answers (fun fuel => extractSubtree fuel tree n) (tree', copy) ∧
      (tree.FaithfulCopy copy n ∧ copy.parentOf copy.root = none ∧ tree.NodeByNode copy n) ∧
      tree.Without tree' n ∧ tree.len = tree'.len + copy.len ∧
      {m | tree.Live m}.ncard = {m | tree'.Live m}.ncard + {m | copy.Live m}.ncard := by
  obtain ⟨copy, hclone, hfaithful, hparent, hnodes⟩ :=
    cloneSubtree_faithful hwf.toConsistent hleaf hn hne
  obtain ⟨tree', hremove, hwithout, hlen⟩ :=
    remove_without hwf hleaf hn (Tree.not_ancestorOrSelf hne hroot) hnodes
  refine ⟨tree', copy, ?_, ⟨hfaithful, hparent, hnodes⟩, hwithout, hlen,
    hwithout.ncard_live hwf.toConsistent hn hnodes⟩
  -- first the copy, then the removal
  refine .bind hclone ?_
  simp only [if_neg hne]
  exact .bind hremove (.const fun _ => rfl)

/-- `extract_conserves` at the list `(a (b))` of `mixedTree`. -/
theorem extract_conserves_mixedTree :
    ∃ tree' copy, Answers (fun fuel => extractSubtree fuel mixedTree ⟨1⟩) (tree', copy) ∧
      mixedTree.FaithfulCopy copy ⟨1⟩ ∧ mixedTree.NodeByNode copy ⟨1⟩ ∧
      mixedTree.Without tree' ⟨1⟩ ∧ 7 = tree'.len + copy.len := by
  have hlive : mixedTree.Live ⟨1⟩ := rfl
  have hne : (⟨1⟩ : NodeId) ≠ mixedTree.root := by decide
  obtain ⟨tree', copy, hanswers, ⟨hfaithful, -, hnodes⟩, hwithout, hlen, -⟩ :=
    extract_conserves mixedTree_wellFormed mixedTree_leafAtoms rfl hlive hne
  exact ⟨tree', copy, hanswers, hfaithful, hnodes, hwithout, hlen⟩

end Sexp
