import Sexp.Core.Contents
import Sexp.Parse.Placement
import Sexp.Parse.RoundTrip
import Sexp.Py.AtomLeaves
import Sexp.Py.Verbatim

/-! # A clone is what parsing builds

Cloning a node other than the root and parsing its text are different ways to the same tree: both
fill a new slab in pre-order, so the two trees agree in every slot, with all links, and only the
version tells them apart (`clone_eq_reparse`). For this the atoms must be leaves, must be stored as
`Atom::new` stores their texts, which they are in every run (`canonical_of_run`), and must have
texts that are tokens. -/

namespace Sexp

open Library (OrderedForest Rose Form Answers)

variable {w : World} {tree : Tree} {n : NodeId} {events : List ApiEvent}

/-- **Atoms are stored as `Atom::new` stores their texts**, in every run. -/
theorem canonical_of_run (hrun : ApiRun events w) :
    w.AllTrees (Tree.Contents NodeType.Canonical) :=
  hrun.forall_tree (C := fun _ => True)
    (fun _ _ _ _ _ _ _ _ _ hwrite _ => hwrite.contents_of trivial fun text _ => canonical_new text)
    (fun _ _ _ _ hcanonical hcreate _ =>
      hcreate.contents_of trivial (fun _ value _ => canonical_new value) hcanonical)
    fun _ _ => trivial

/-- **Cloning and parsing the text build the same tree** of a node, up to the version. -/
theorem Tree.Leafy.clone_eq (hleafy : tree.Leafy) (hcanonical : tree.Contents NodeType.Canonical)
    (hn : tree.Live n) (hne : n ≠ tree.root)
    (hclean : ∀ m node value, tree.AncestorOrSelf n m → tree.nodes.get m = some node →
      node.kind = .atom value → CleanAtom value.asStr) :
    ∃ text copy parsed, Answers (fun fuel => serializeNode fuel tree n) text ∧
      Answers (fun fuel => cloneSubtree fuel tree n) copy ∧
      Answers (fun fuel => parse fuel text) (.ok parsed) ∧
      copy = { parsed with version := copy.version } := by
  obtain ⟨F, hF⟩ := hleafy.exists_represents
  obtain ⟨r, rfl, hr⟩ := F.exists_spans n
  obtain ⟨copy, hclone, hcopy, hnumbered⟩ := cloneSubtree_numbered hF hr hn hne
  have hdenotes : tree.Denotes r.root (formOf F.label r) :=
    ⟨F, r, hF, hF.live_iff.mp hn, hr, rfl, rfl⟩
  obtain ⟨parsed, hparse, hspells, shape, hnumbered'⟩ :=
    parse_form_numbered (tokensOf_print (hdenotes.cleanTokens hclean)) hdenotes.size_le
  obtain ⟨fuel, hfuel⟩ := hclone.exists_fuel
  obtain ⟨fuel', hfuel'⟩ := hparse.exists_fuel
  -- both trees look like the form of the node
  rw [hnumbered.shape_eq hcopy.denotes
    (cloneSubtree_leafAtoms hleafy.toConsistent hleafy.leafAtoms hne hfuel)
    (cloneSubtree_contents hcanonical hne hfuel)] at hnumbered
  rw [hnumbered'.shape_eq hspells.denotes hspells.leafAtoms (parse_canonical hfuel')] at hnumbered'
  obtain ⟨hnodes, hroot⟩ := hnumbered'.nodes_eq hnumbered
  refine ⟨_, copy, parsed, serializeNode_answers hdenotes, hclone, hparse, ?_⟩
  have hbare := hcopy.bare_eq.trans hspells.bare_eq.symm
  have hcache := hcopy.reprCache_eq.trans (parse_reprCache hfuel').symm
  cases copy
  cases parsed
  simp only at hnodes hroot hbare hcache
  rw [hnodes, hroot, hbare, hcache]

/-- **A clone is what parsing builds**: in every run whose attachments are guarded and go under
lists, for every live node other than the root with clean atoms at and below it, cloning the node
and parsing its text give the same tree, slot by slot, up to the version. -/
theorem clone_eq_reparse (hrun : ApiRun events w) (hguarded : ∀ e ∈ events, e.GuardedLists) :
    w.AllTrees fun tree => ∀ n, tree.Live n → n ≠ tree.root →
      (∀ m node value, tree.AncestorOrSelf n m → tree.nodes.get m = some node →
        node.kind = .atom value → CleanAtom value.asStr) →
      ∃ text copy parsed, Answers (fun fuel => serializeNode fuel tree n) text ∧
        Answers (fun fuel => cloneSubtree fuel tree n) copy ∧
        Answers (fun fuel => parse fuel text) (.ok parsed) ∧
        copy = { parsed with version := copy.version } := by
  intro tree htree n hn hne hclean
  exact (leafy_of_run hrun hguarded tree htree).clone_eq (canonical_of_run hrun tree htree) hn hne
    hclean

/-- `clone_eq_reparse` at the list `(a (b))` of a parsed text. -/
theorem clone_eq_reparse_parsed :
    ∃ copy parsed, Answers (fun fuel => serializeNode fuel mixedTree ⟨1⟩) "(a (b))" ∧
      Answers (fun fuel => cloneSubtree fuel mixedTree ⟨1⟩) copy ∧
      Answers (fun fuel => parse fuel "(a (b))") (.ok parsed) ∧
      copy = { parsed with version := copy.version } := by
  have hguarded : ∀ e ∈ eventsParsed, e.GuardedLists := fun e he =>
    ⟨⟨eventsParsed_attachesOnly _ e he, eventsParsed_small e he⟩, eventsParsed_attachesOnly _ e he⟩
  obtain ⟨text, copy, parsed, htext, hrest⟩ := clone_eq_reparse run_parsed hguarded mixedTree
    List.mem_cons_self ⟨1⟩ rfl (by decide) fun m node value _ => mixedTree_cleanAtom
  have hprinted : serializeNode 20 mixedTree ⟨1⟩ = .ok "(a (b))" := by decide +kernel
  obtain rfl := htext.eq_of_ok (serializeNode_mono _ _) hprinted
  exact ⟨copy, parsed, htext, hrest⟩

end Sexp
