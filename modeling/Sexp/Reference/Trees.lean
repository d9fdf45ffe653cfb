import Sexp.Core.LeafAtoms
import Sexp.Parse.AnyText
import Sexp.Reference.Abstraction

/-! # Trees that are written or created

What a write does to a tree it does to the document: another text and a new node put a content,
attaching moves a node, and removing deletes one. A tree that is created holds the nodes that it is
created from. -/

namespace Sexp

open Library (OrderedForest Rose Spans Form)
open Reference (Content Document contentsOf)

variable {tree tree' copy : Tree} {F : OrderedForest NodeId NodeType} {id parent child : NodeId}
  {kind : NodeType} {form : Form String}

/-! ## Writes -/

/-- A node with another content, or a new node. -/
theorem Tree.WellFormed.document_put (hwf : tree.WellFormed) (hwf' : tree'.WellFormed)
    (hF : tree.Represents F) (hF' : tree'.Represents (F.setLabel id kind))
    (hroot : tree'.root = tree.root) (hbare : tree'.bare = tree.bare) :
    tree'.document = tree.document.put id kind.content := by
  refine Document.ext ?_ (by simp [hroot, Document.put]) (by simp [hbare, Document.put])
  change _ = tree.document.forest.setLabel id kind.content
  rw [hwf'.document_forest hF', OrderedForest.mapLabel_setLabel, hwf.document_forest hF]

/-- Another text puts an atom. -/
theorem Tree.WellFormed.document_withValue (hwf : tree.WellFormed) (hid : tree.Live id)
    (value : String) : (tree.withValue id value).WellFormed ∧
      (tree.withValue id value).document = tree.document.put id (.atom value) := by
  obtain ⟨F, hF⟩ := hwf.exists_represents
  have hF' := hF.withValue value hid
  have hwf' : (tree.withValue id value).WellFormed := by
    refine ⟨hwf.toConsistent.withValue value hid, hF'.live_iff.mpr ?_⟩
    have hroot : (F.label tree.root).isSome := hF.live_iff.mp hwf.root_live
    change ((F.setLabel id _).label tree.root).isSome
    unfold OrderedForest.setLabel
    dsimp only
    split
    · rfl
    · exact hroot
  refine ⟨hwf', ?_⟩
  rw [hwf.document_put hwf' hF hF' rfl rfl, NodeType.content, Atom.asStr_new]

/-- Allocating puts the content of a new node. -/
theorem Tree.Allocated.document (halloc : tree.Allocated tree' id kind) (hwf : tree.WellFormed)
    (hfits : tree'.nodes.slots.length ≤ 2 ^ 32) :
    ¬ tree.document.Live id ∧ tree'.document = tree.document.put id kind.content := by
  obtain ⟨F, hF⟩ := hwf.exists_represents
  obtain ⟨hdead, hF'⟩ := halloc.represents hF hwf.slab hfits
  refine ⟨?_, ?_⟩
  · rw [hwf.live_document, hF.live_iff, hdead]
    exact Bool.false_ne_true
  · refine hwf.document_put (halloc.wellFormed hwf hfits) hF hF' ?_ ?_ <;> rw [halloc.frame]

/-- A node that moves in a tree moves in the document. -/
theorem Tree.Moved.document {put : List NodeId → List NodeId}
    (hmoved : tree.Moved tree' parent child put) (hwf : tree.WellFormed) (hwf' : tree'.WellFormed)
    (hroot : tree'.root = tree.root) (hbare : tree'.bare = tree.bare) :
    tree.document.Moves tree'.document parent child put := by
  obtain ⟨F, G, hF, hG, hlabel, hparent, hchildren⟩ := hmoved
  refine ⟨?_, by simp [hroot], by simp [hbare]⟩
  rw [hwf.document_forest hF, hwf'.document_forest hG]
  exact OrderedForest.Moves.mapLabel ⟨hlabel, hparent, hchildren⟩ NodeType.content

/-- A subtree that is deleted from a tree is deleted from the document. -/
theorem Tree.Deleted.document (hdeleted : tree.Deleted tree' id) (hwf : tree.WellFormed)
    (hwf' : tree'.WellFormed) (hroot : tree'.root = tree.root) (hbare : tree'.bare = tree.bare) :
    tree.document.Deletes tree'.document id := by
  obtain ⟨F, G, hF, hG, hdead, hstays⟩ := hdeleted
  refine ⟨?_, by simp [hroot], by simp [hbare]⟩
  rw [hwf.document_forest hF, hwf'.document_forest hG]
  exact OrderedForest.Deletes.mapLabel ⟨hdead, hstays⟩ NodeType.content

/-! ## Copies -/

/-- The nodes that a copy takes along. -/
theorem map_copied (label : NodeId → Option NodeType) (r : Rose NodeId) :
    ((copied label r).map label).map (Option.map NodeType.content) =
      Reference.copied ((r.map label).map (Option.map NodeType.content)) := by
  rcases r with ⟨n, ks⟩
  rw [copied, Rose.root_node]
  rcases hlabel : label n with _ | value | _
  · simp [hlabel, Reference.copied]
  · simp [hlabel, Reference.copied, NodeType.content]
  · simp [hlabel, Reference.copied, NodeType.content]

/-- **A copy holds the nodes that it is made of.** -/
theorem Tree.CopyOf.holds {label : NodeId → Option NodeType} {r : Rose NodeId}
    (h : copy.CopyOf label r) :
    copy.document.Holds ((r.map label).map (Option.map NodeType.content)) false := by
  obtain ⟨G, r', hG, -, hr', hroot, hmap⟩ := h.shape
  refine ⟨?_, fun n hn => ?_, ?_⟩
  · rw [document_root, ← hroot, h.wellFormed.document_contents hG hr', hmap]
  · rw [document_root, h.wellFormed.document_subtree]
    exact h.live_iff.mp (h.wellFormed.live_document.mp hn)
  · rw [document_blank, h.bare_eq]

/-- The contents in the subtree of a node are those of its spanning tree. -/
theorem Tree.WellFormed.document_copied (hwf : tree.WellFormed) (hF : tree.Represents F)
    {r : Rose NodeId} (hr : Spans F.children r) :
    ((copied F.label r).map F.label).map (Option.map NodeType.content) =
      Reference.copied (tree.document.contents r.root) := by
  rw [map_copied, hwf.document_contents hF hr]

/-! ## Parsed trees -/

/-- The nodes of a form are the ones below a node that denotes it, when atoms are leaves. -/
theorem contentsOf_formOf {r : Rose NodeId} (hr : Spans F.children r)
    (hlive : (F.label r.root).isSome) (hleaf : LeafRose (r.map F.label)) :
    contentsOf (formOf F.label r) = (r.map F.label).map (Option.map NodeType.content) := by
  induction hr with
  | @node n ks hkids hspans ih =>
      rw [Rose.map_node, Rose.mapAll_eq_map] at hleaf
      cases hleaf with
      | node hatom hleafs =>
        obtain ⟨kind, hkind⟩ := Option.isSome_iff_exists.mp hlive
        rw [Rose.root_node] at hkind
        rcases kind with value | _
        · -- an atom has no subtrees
          have hnil : ks = [] := List.map_eq_nil_iff.mp (hatom value hkind)
          subst hnil
          rw [formOf_atom hkind]
          simp [contentsOf, hkind, NodeType.content]
        · have hks : ks.map (contentsOf ∘ formOf F.label) =
              ks.map (Rose.map (Option.map NodeType.content) ∘ Rose.map F.label) := by
            refine List.map_congr_left fun k hk => ih k hk ?_ (hleafs _ (List.mem_map_of_mem hk))
            exact F.live_child (p := n) (F.mem_children.mp (hkids ▸ List.mem_map_of_mem hk))
          rw [formOf_list hkind, Reference.contentsOf_list, List.map_map, hks]
          simp [hkind, NodeType.content, Rose.mapAll_eq_map]

/-- A form has one node for each of its parts. -/
theorem length_parts (form : Form String) : form.parts.length = form.size := by
  match form with
  | .atom a => rw [Form.parts_atom, Form.size_atom, List.length_singleton]
  | .list forms =>
      rw [Form.parts_list, Form.size_list, List.length_cons]
      exact congrArg (· + 1) (length_partsAll forms)
where
  /-- The same for the members of a list. -/
  length_partsAll (forms : List (Form String)) :
      (Form.partsAll forms).length = Form.sizeAll forms := by
    match forms with
    | [] => rfl
    | form :: forms =>
        rw [Form.partsAll_cons, Form.sizeAll_cons, List.length_append, length_parts form,
          length_partsAll forms]

/-- **The tree of a form holds the nodes of the form.** -/
theorem Tree.Spells.holds (h : tree.Spells form) (hcache : tree.reprCache = none) :
    tree.document.Holds (contentsOf form) false := by
  obtain ⟨F, r, hF, hlive, hr, hroot, hform⟩ := h.denotes
  rw [← hroot] at hlive
  have hleaf := leafRose_of_spans (hF.leafAtoms_iff.mp h.leafAtoms) hr
  have hlength : r.ids.length = form.size := by
    rw [(hF.denotes_parts hr hlive hleaf).length_eq, hform, length_parts]
  -- the tree is a copy of itself
  have hcopy : tree.CopyOf F.label r :=
    { wellFormed := h.wellFormed
      root_parentless := h.root_parentless
      free_eq := h.free_eq
      len_eq := h.len_eq.trans hlength.symm
      shape := ⟨F, r, hF, hlive, hr, hroot, rfl⟩
      bare_eq := h.bare_eq
      reprCache_eq := hcache }
  rw [← hform, contentsOf_formOf hr hlive hleaf]
  exact hcopy.holds

/-- **A tree of a single list.** -/
theorem single_holds : (Tree.fromRaw ⟨[some (Node.unlinked .list)], []⟩ ⟨0⟩).document.Holds
    (.node (some .list) []) false := by
  have hcopy : (Tree.fromRaw ⟨[some (Node.unlinked .list)], []⟩ ⟨0⟩).CopyOf (fun _ => some .list)
      (.node ⟨0⟩ []) := copyOf_single rfl
  simpa [NodeType.content] using hcopy.holds

/-- The implicit tree of an empty text. -/
theorem newBare_holds (h : Tree.newBare = .ok tree) :
    tree.document.Holds (.node (some .list) []) true := by
  rw [newBare_eq h]
  have hF : ({ Tree.fromRaw ⟨[some (Node.unlinked .list)], []⟩ ⟨0⟩ with
      bare := true } : Tree).Represents _ := fun id => represents_single .list id
  have hwf : ({ Tree.fromRaw ⟨[some (Node.unlinked .list)], []⟩ ⟨0⟩ with
      bare := true } : Tree).WellFormed := ⟨hF.consistent (wellFormed_single .list).slab, rfl⟩
  -- only the flag differs from the tree of a single list
  have hforest := (hwf.document_forest hF).trans
    ((wellFormed_single .list).document_forest (represents_single .list)).symm
  obtain ⟨hcontents, hbelow, -⟩ := single_holds
  refine ⟨?_, fun n hn => ?_, Tree.document_blank _⟩
  · rw [Document.contents, hforest, Tree.document_root]
    rwa [Tree.document_root] at hcontents
  · rw [hforest, Tree.document_root]
    rw [Tree.document_root] at hbelow
    refine hbelow n ?_
    rwa [Document.Live, hforest] at hn

end Sexp
