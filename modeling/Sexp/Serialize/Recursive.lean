import Sexp.Core.DepthFirst
import Sexp.Serialize.Printing

/-! # The serializer against recursion over the tree

What the serializer computes with a stack, backward walks and a look at previous siblings is what
recursion along the forward links computes: an atom is its text, a list the texts of its children
between parentheses, joined by single spaces. -/

namespace Sexp

open Library (Rose Answers)

/-- The text of a node from the texts of its children. -/
def printOf (_node : NodeId) (kind : NodeType) (texts : List String) : String :=
  match kind with
  | .atom value => value.asStr
  | .list => "(" ++ " ".intercalate texts ++ ")"

/-- **The recursive printer**: the text of an atom verbatim, or the texts of the children, in
forward sibling order, joined by single spaces between parentheses. -/
def printNode (fuel : Nat) (tree : Tree) (node : NodeId) : Exec String :=
  foldSubtree printOf fuel tree node

variable {label : NodeId → Option NodeType}

mutual

/-- Printing by recursion over a rose tree is printing its form. -/
theorem fold_print (r : Rose NodeId) :
    (r.fold fun id texts => printOf id ((label id).getD .list) texts) =
      print (formOf label r) := by
  match r with
  | .node n ks =>
      rw [Rose.fold, foldAll_print ks, formOf]
      rcases label n with _ | value | _
      · rw [print, printAll_eq]
        rfl
      · rw [print]
        rfl
      · rw [print, printAll_eq]
        rfl

/-- Printing rose trees is printing their forms. -/
theorem foldAll_print (ks : List (Rose NodeId)) :
    Rose.foldAll (fun id texts => printOf id ((label id).getD .list) texts) ks =
      (formsOf label ks).map print := by
  match ks with
  | [] => rfl
  | k :: ks => rw [Rose.foldAll, fold_print k, foldAll_print ks, formsOf, List.map_cons]

end

variable {tree : Tree} {n : NodeId}

/-- **The stack-based serializer is the recursive printer.** At a live node of a consistent tree
both terminate with the same text; `write_node` appends it to its output, after a space if one is
asked for. -/
theorem serializer_eq_recursive (h : tree.Consistent) (hn : tree.Live n) :
    ∃ text, Answers (fun fuel => printNode fuel tree n) text ∧
      Answers (fun fuel => serializeNode fuel tree n) text ∧
      ∀ output needsSpace, Answers (fun fuel => writeNode fuel tree n output needsSpace)
        (output ++ (if needsSpace then " " else "") ++ text) := by
  obtain ⟨F, hF⟩ := h.exists_represents
  obtain ⟨r, rfl, hr⟩ := F.exists_spans n
  have hprint := foldSubtree_answers printOf hF hr hn
  rw [fold_print] at hprint
  refine ⟨print (formOf F.label r), hprint,
    serializeNode_answers ⟨F, r, hF, hF.live_iff.mp hn, hr, rfl, rfl⟩, fun output needsSpace => ?_⟩
  -- the stack holds one frame, and the loop leaves when it is cleared
  have hclears := writePass_clears hF hr hn output needsSpace
  exact (hclears.loopAnswers (.const fun _ => rfl)).answers

/-- `serializer_eq_recursive` at `listOfAtom`. -/
theorem serializer_eq_recursive_listOfAtom :
    ∃ text, Answers (fun fuel => printNode fuel listOfAtom ⟨0⟩) text ∧
      Answers (fun fuel => serializeNode fuel listOfAtom ⟨0⟩) text := by
  obtain ⟨text, hprint, hserialize, -⟩ :=
    serializer_eq_recursive listOfAtom_wellFormed.toConsistent (rfl : listOfAtom.Live ⟨0⟩)
  exact ⟨text, hprint, hserialize⟩

end Sexp
