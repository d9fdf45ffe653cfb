import Sexp.Core.LeafAtoms
import Sexp.Py.Canonical
import Sexp.Py.Equality

/-! # Equal nodes have equal texts

`subtrees_equal` compares child counts and walks the children of two lists forward, the serializer
walks them backward. In well-formed trees with leaf atoms both see the same form: `subtrees_equal`
ends, and is true iff the two nodes have the same nesting and order, and the same atom texts. When
the atoms are single tokens, this is so iff the serializer writes the same text for both nodes
(`equal_iff_same_text`). -/

namespace Sexp

open Library (Form Answers)

variable {left right tree : Tree} {l r n : NodeId} {form : Form String}

/-- **The atoms at and below a node are single tokens.** -/
def Tree.LoneAtomsBelow (tree : Tree) (n : NodeId) : Prop :=
  ∀ m node value, tree.AncestorOrSelf n m → tree.nodes.get m = some node →
    node.kind = .atom value → LoneAtom value.asStr

/-- Single tokens are the clean atoms of the form of the node. -/
theorem Tree.LoneAtomsBelow.cleanTokens (h : tree.LoneAtomsBelow n) (hform : tree.Denotes n form) :
    CleanTokens form.tokens := by
  apply hform.cleanTokens
  intro m node value hbelow hm hkind
  exact loneAtom_iff.mp (h m node value hbelow hm hkind)

/-- **Equality is structural equality.** For any two well-formed trees with leaf atoms, which may be
the same tree, and any live nodes of them, `subtrees_equal` ends, and is true iff the two nodes show
the same form. When the atoms at and below both nodes are single tokens, it is true iff
`serialize_node` writes the same text for both. -/
theorem equal_iff_same_text (hleft : left.WellFormed) (hright : right.WellFormed)
    (hleafs : left.LeafAtoms) (hleafs' : right.LeafAtoms) (hl : left.Live l) (hr : right.Live r) :
    ∃ answer form form', Answers (fun fuel => subtreesEqual fuel left l right r) answer ∧
      left.Shows l form ∧ right.Shows r form' ∧ (answer = true ↔ form = form') ∧
      (left.LoneAtomsBelow l → right.LoneAtomsBelow r →
        ∃ text text', Answers (fun fuel => serializeNode fuel left l) text ∧
          Answers (fun fuel => serializeNode fuel right r) text' ∧
          (answer = true ↔ text = text')) := by
  obtain ⟨form, hform⟩ := hleft.toConsistent.shows hleafs hl
  obtain ⟨form', hform'⟩ := hright.toConsistent.shows hleafs' hr
  obtain ⟨answer, hanswers, hiff⟩ := subtreesEqual_answers hform.denotes hform'.denotes
  refine ⟨answer, form, form', hanswers, hform, hform', hiff, fun htokens htokens' => ?_⟩
  refine ⟨print form, print form', serializeNode_answers hform.denotes,
    serializeNode_answers hform'.denotes, ?_⟩
  rw [hiff, print_inj (htokens.cleanTokens hform.denotes) (htokens'.cleanTokens hform'.denotes)]

/-- `equal_iff_same_text` at `(a (b))` and the list in it, and at empty lists of two trees. -/
theorem equal_iff_same_text_mixedTree :
    Answers (fun fuel => subtreesEqual fuel mixedTree ⟨1⟩ mixedTree ⟨3⟩) false ∧
      Answers (fun fuel => subtreesEqual fuel mixedTree ⟨6⟩ nestedLists ⟨1⟩) true := by
  have htokens : ∀ n, mixedTree.LoneAtomsBelow n := fun n m node value _ hm hkind =>
    loneAtom_iff.mpr (mixedTree_cleanAtom hm hkind)
  have htokens' : nestedLists.LoneAtomsBelow ⟨1⟩ := by
    intro m node value _ hm hkind
    rw [nestedLists_kind hm] at hkind
    cases hkind
  constructor
  · obtain ⟨answer, form, form', hanswers, -, -, -, htexts⟩ :=
      equal_iff_same_text mixedTree_wellFormed mixedTree_wellFormed mixedTree_leafAtoms
        mixedTree_leafAtoms (rfl : mixedTree.Live ⟨1⟩) (rfl : mixedTree.Live ⟨3⟩)
    obtain ⟨text, text', htext, htext', hiff⟩ := htexts (htokens _) (htokens _)
    have houter : serializeNode 20 mixedTree ⟨1⟩ = .ok "(a (b))" := by decide +kernel
    have hinner : serializeNode 20 mixedTree ⟨3⟩ = .ok "(b)" := by decide +kernel
    obtain rfl := htext.eq_of_ok (serializeNode_mono _ _) houter
    obtain rfl := htext'.eq_of_ok (serializeNode_mono _ _) hinner
    obtain rfl : answer = false := Bool.eq_false_iff.mpr fun htrue => by simpa using hiff.mp htrue
    exact hanswers
  · obtain ⟨answer, form, form', hanswers, -, -, -, htexts⟩ :=
      equal_iff_same_text mixedTree_wellFormed nestedLists_wellFormed mixedTree_leafAtoms
        nestedLists_leafAtoms (rfl : mixedTree.Live ⟨6⟩) (rfl : nestedLists.Live ⟨1⟩)
    obtain ⟨text, text', htext, htext', hiff⟩ := htexts (htokens _) htokens'
    have hleft : serializeNode 20 mixedTree ⟨6⟩ = .ok "()" := by decide +kernel
    have hright : serializeNode 20 nestedLists ⟨1⟩ = .ok "()" := by decide +kernel
    obtain rfl := htext.eq_of_ok (serializeNode_mono _ _) hleft
    obtain rfl := htext'.eq_of_ok (serializeNode_mono _ _) hright
    obtain rfl := hiff.mpr rfl
    exact hanswers

end Sexp
