import Sexp.Py.Canonical
import Sexp.Py.Equality

/-! # Wrapping a text in a list

`parse` accepts one form at most. A sequence of forms is read by wrapping it in parentheses, as the
API reference advises: the forms become the children of the root, each one structurally equal to
what `parse` makes of it alone, and a text that is no sequence of forms stays an error, whatever its
parentheses do to those around it (`parse_wrapped`). -/

namespace Sexp

open Library (Form Answers nodeCount)

variable {tree left right : Tree} {id : NodeId} {form : Form String}
  {forms forms' : List (Form String)} {as bs cs : List NodeId}

/-! ## The tokens of a wrapped text -/

/-- A text in parentheses. -/
def wrapped (s : String) : String := "(" ++ s ++ ")"

/-- The tokens of a text in parentheses. -/
theorem tokensOf_wrapped (s : String) :
    tokensOf (wrapped s) = .leftParen :: (tokensOf s ++ [.rightParen]) := by
  have htext : (wrapped s).toList = '(' :: (s.toList ++ [')']) := by simp [wrapped]
  have hclose : lex [')'] = [.rightParen] := by rw [lex_right, lex_nil]
  rw [tokensOf, htext, lex_left, lex_append _ (endsAtom_cons rfl []), hclose, tokensOf]

/-- The tokens of two texts with a space in between. -/
theorem tokensOf_join (s t : String) : tokensOf (s ++ " " ++ t) = tokensOf s ++ tokensOf t := by
  have htext : (s ++ " " ++ t).toList = s.toList ++ ' ' :: t.toList := by simp
  rw [tokensOf, htext, lex_append _ (endsAtom_cons rfl t.toList), lex_space rfl, tokensOf, tokensOf]

/-- The node of the list is added by the parentheses. -/
theorem nodeCount_wrapped (s : String) :
    nodeCount (tokensOf (wrapped s)) = nodeCount (tokensOf s) + 1 := by
  simp [tokensOf_wrapped]

/-- A text in parentheses is a list of forms iff the text is a sequence of these forms. -/
theorem wrapped_eq_list {s : String} :
    tokensOf (wrapped s) = (Form.list forms).tokens ↔ tokensOf s = Form.tokensAll forms := by
  rw [tokensOf_wrapped, Form.tokens_list, List.cons.injEq, List.append_cancel_right_eq]
  exact and_iff_right rfl

/-! ## Structural equality with the forms alone -/

/-- Two nodes are found structurally equal. -/
def Alike (left : Tree) (l : NodeId) (right : Tree) (r : NodeId) : Prop :=
  Answers (fun fuel => subtreesEqual fuel left l right r) true

/-- Nodes that denote the same forms, one by one, are structurally equal. -/
theorem forall₂_alike (hleft : List.Forall₂ left.Denotes as forms)
    (hright : List.Forall₂ right.Denotes bs forms) :
    List.Forall₂ (fun a b => Alike left a right b) as bs := by
  refine (forall₂_of_common hleft hright).imp fun a b hboth => ?_
  obtain ⟨form, ha, hb⟩ := hboth
  exact subtreesEqual_of_denotes ha hb

/-- **A node is the tree of a form alone**: there are texts of the form, and `parse` makes of every
one of them a tree whose root is structurally equal to the node. -/
structure Tree.IsFormAlone (tree : Tree) (id : NodeId) (form : Form String) : Prop where
  /-- The form has a text. -/
  exists_text : ∃ u, tokensOf u = form.tokens
  /-- Every text of the form gives a tree with an equal root. -/
  alike : ∀ u, tokensOf u = form.tokens → ∃ alone,
    Answers (fun fuel => parse fuel u) (.ok alone) ∧ Alike tree id alone alone.root

/-- A node is the tree of the form that it denotes. -/
theorem Tree.IsFormAlone.of_denotes (h : tree.Denotes id form) (hclean : CleanTokens form.tokens) :
    tree.IsFormAlone id form where
  exists_text := ⟨print form, tokensOf_print hclean⟩
  alike u hu := by
    obtain ⟨alone, hparse, hspells⟩ := parse_form hu h.size_le
    exact ⟨alone, hparse, subtreesEqual_of_denotes h hspells.denotes⟩

/-- Nodes are the trees of the forms that they denote. -/
theorem forall₂_isFormAlone (h : List.Forall₂ tree.Denotes cs forms)
    (hclean : CleanTokens (Form.tokensAll forms)) :
    List.Forall₂ tree.IsFormAlone cs forms := by
  induction h with
  | nil => exact .nil
  | cons hfirst _ ih =>
      rw [Form.tokensAll_cons] at hclean
      apply List.Forall₂.cons
      · exact .of_denotes hfirst fun value hvalue => hclean value (List.mem_append_left _ hvalue)
      · exact ih fun value hvalue => hclean value (List.mem_append_right _ hvalue)

/-! ## The children of the root -/

/-- **The root is a list** with these children. -/
def Tree.RootList (tree : Tree) (cs : List NodeId) : Prop :=
  ∃ n, tree.nodes.get tree.root = some n ∧ n.kind = .list ∧ tree.IsChildList tree.root n cs

/-- **The tree of a wrapped text**: the children of the root denote the forms of the text. -/
theorem parse_wrapped_children {s : String} (hs : tokensOf s = Form.tokensAll forms)
    (hfew : nodeCount (tokensOf (wrapped s)) ≤ 2 ^ 32) :
    ∃ tree cs, Answers (fun fuel => parse fuel (wrapped s)) (.ok tree) ∧ tree.RootList cs ∧
      List.Forall₂ tree.Denotes cs forms := by
  have htokens : tokensOf (wrapped s) = (Form.list forms).tokens := wrapped_eq_list.mpr hs
  rw [htokens, Library.nodeCount_tokens] at hfew
  obtain ⟨tree, hparse, hspells⟩ := parse_form htokens hfew
  obtain ⟨n, cs, hn, hkind, hl, hforms⟩ := hspells.denotes.children
  exact ⟨tree, cs, hparse, ⟨n, hn, hkind, hl⟩, hforms⟩

/-- **A wrapped text is accepted iff it is a sequence of forms.** -/
theorem parse_wrapped_accepts_iff (s : String) :
    ∃ result, Answers (fun fuel => parse fuel (wrapped s)) result ∧
      ((∃ tree, result = .ok tree) ↔
        ∃ forms : List (Form String), tokensOf s = Form.tokensAll forms) := by
  obtain ⟨result, hanswers, haccepts⟩ := parse_accepts_iff (wrapped s)
  refine ⟨result, hanswers, haccepts.trans ?_⟩
  constructor
  · rintro ⟨forms, hsingle, hforms⟩
    rw [tokensOf_wrapped] at hforms
    -- the first token opens the only form, so that this form ends at the last token
    match forms with
    | [] => simp at hforms
    | [.atom value] => simp at hforms
    | [.list members] =>
        refine ⟨members, wrapped_eq_list.mp ?_⟩
        rw [tokensOf_wrapped, hforms, Form.tokensAll_cons, Form.tokensAll_nil, List.append_nil]
    | _ :: _ :: _ => simp at hsingle
  · rintro ⟨forms, hforms⟩
    refine ⟨[.list forms], le_rfl, ?_⟩
    rw [wrapped_eq_list.mpr hforms, Form.tokensAll_cons, Form.tokensAll_nil, List.append_nil]

/-- **Wrapping parses a sequence, compositionally.** A text in parentheses is accepted iff it is a
sequence of forms. When there are keys for all nodes, the children of the root are the trees of
these forms alone, and those of two texts in common parentheses are the ones of the first text
followed by the ones of the second. -/
theorem parse_wrapped (s t : String) :
    (∀ forms, tokensOf s = Form.tokensAll forms →
      ∃ tree, Answers (fun fuel => parse fuel (wrapped s)) (.ok tree) ∧
        (nodeCount (tokensOf (wrapped s)) ≤ 2 ^ 32 →
          ∃ cs, tree.RootList cs ∧ List.Forall₂ tree.IsFormAlone cs forms)) ∧
    (∀ forms forms', tokensOf s = Form.tokensAll forms → tokensOf t = Form.tokensAll forms' →
      nodeCount (tokensOf (wrapped (s ++ " " ++ t))) ≤ 2 ^ 32 →
      ∃ left as right bs tree as' bs',
        Answers (fun fuel => parse fuel (wrapped s)) (.ok left) ∧ left.RootList as ∧
        Answers (fun fuel => parse fuel (wrapped t)) (.ok right) ∧ right.RootList bs ∧
        Answers (fun fuel => parse fuel (wrapped (s ++ " " ++ t))) (.ok tree) ∧
        tree.RootList (as' ++ bs') ∧
        List.Forall₂ (fun c a => Alike tree c left a) as' as ∧
        List.Forall₂ (fun c b => Alike tree c right b) bs' bs) ∧
    ((¬ ∃ forms, tokensOf s = Form.tokensAll forms) →
      ∃ error, Answers (fun fuel => parse fuel (wrapped s)) (.error error)) := by
  obtain ⟨result, hanswers, haccepts⟩ := parse_wrapped_accepts_iff s
  refine ⟨fun forms hs => ?_, fun forms forms' hs ht hfew => ?_, fun hno => ?_⟩
  · obtain ⟨tree, rfl⟩ := haccepts.mpr ⟨forms, hs⟩
    refine ⟨tree, hanswers, fun hfew => ?_⟩
    obtain ⟨tree', cs, hparse, hroot, hforms⟩ := parse_wrapped_children hs hfew
    cases hanswers.unique hparse
    exact ⟨cs, hroot, forall₂_isFormAlone hforms (hs ▸ cleanTokens_tokensOf s)⟩
  · -- both texts have fewer nodes than the text in common parentheses
    have hjoin : tokensOf (s ++ " " ++ t) = Form.tokensAll (forms ++ forms') := by
      rw [tokensOf_join, hs, ht, Form.tokensAll_append]
    rw [nodeCount_wrapped, tokensOf_join, Library.nodeCount_append] at hfew
    have hfew₁ : nodeCount (tokensOf (wrapped s)) ≤ 2 ^ 32 := by
      rw [nodeCount_wrapped]
      omega
    have hfew₂ : nodeCount (tokensOf (wrapped t)) ≤ 2 ^ 32 := by
      rw [nodeCount_wrapped]
      omega
    have hfew₃ : nodeCount (tokensOf (wrapped (s ++ " " ++ t))) ≤ 2 ^ 32 := by
      rwa [nodeCount_wrapped, tokensOf_join, Library.nodeCount_append]
    obtain ⟨left, as, hparse₁, hroot₁, hforms₁⟩ := parse_wrapped_children hs hfew₁
    obtain ⟨right, bs, hparse₂, hroot₂, hforms₂⟩ := parse_wrapped_children ht hfew₂
    obtain ⟨tree, cs, hparse, hroot, hforms⟩ := parse_wrapped_children hjoin hfew₃
    have hfirst := List.forall₂_take_append cs forms forms' hforms
    have hsecond := List.forall₂_drop_append cs forms forms' hforms
    refine ⟨left, as, right, bs, tree, _, _, hparse₁, hroot₁, hparse₂, hroot₂, hparse, ?_,
      forall₂_alike hfirst hforms₁, forall₂_alike hsecond hforms₂⟩
    rwa [List.take_append_drop]
  · rcases result with error | tree
    · exact ⟨error, hanswers⟩
    · exact absurd (haccepts.mp ⟨tree, rfl⟩) hno

/-- `parse_wrapped` at an atom, at an atom and an empty list, and at a text whose parentheses close
the wrapper and open another list. -/
theorem parse_wrapped_atomAndList :
    (∃ tree cs, Answers (fun fuel => parse fuel (wrapped "a")) (.ok tree) ∧ tree.RootList cs ∧
      List.Forall₂ tree.IsFormAlone cs [.atom "a"]) ∧
    (∃ left as right bs tree as' bs',
      Answers (fun fuel => parse fuel (wrapped "a")) (.ok left) ∧ left.RootList as ∧
      Answers (fun fuel => parse fuel (wrapped "()")) (.ok right) ∧ right.RootList bs ∧
      Answers (fun fuel => parse fuel (wrapped ("a" ++ " " ++ "()"))) (.ok tree) ∧
      tree.RootList (as' ++ bs') ∧
      List.Forall₂ (fun c a => Alike tree c left a) as' as ∧
      List.Forall₂ (fun c b => Alike tree c right b) bs' bs) ∧
    ∃ error, Answers (fun fuel => parse fuel (wrapped ")(")) (.error error) := by
  have hatom : tokensOf "a" = Form.tokensAll [.atom "a"] := by
    change lex (['a'] ++ []) = _
    rw [lex_atom (List.cons_ne_nil 'a' []) (List.forall_mem_singleton.mpr rfl) endsAtom_nil]
    simp
  have hlist : tokensOf "()" = Form.tokensAll [.list []] := by
    change lex ['(', ')'] = _
    rw [lex_left, lex_right, lex_nil]
    rfl
  have hstray : tokensOf ")(" = [.rightParen, .leftParen] := by
    change lex [')', '('] = _
    rw [lex_right, lex_left, lex_nil]
  have hone : nodeCount (tokensOf (wrapped "a")) ≤ 2 ^ 32 := by
    simp [nodeCount_wrapped, hatom]
  have htwo : nodeCount (tokensOf (wrapped ("a" ++ " " ++ "()"))) ≤ 2 ^ 32 := by
    rw [nodeCount_wrapped, tokensOf_join, hatom, hlist]
    simp
  obtain ⟨haccepts, hjoin, -⟩ := parse_wrapped "a" "()"
  obtain ⟨tree, hparse, hroot⟩ := haccepts [.atom "a"] hatom
  obtain ⟨cs, hcs, hforms⟩ := hroot hone
  refine ⟨⟨tree, cs, hparse, hcs, hforms⟩, hjoin _ _ hatom hlist htwo, ?_⟩
  refine (parse_wrapped ")(" "").2.2 ?_
  rintro ⟨forms, hforms⟩
  rw [hstray] at hforms
  match forms with
  | [] => simp at hforms
  | .atom value :: rest => simp at hforms
  | .list members :: rest => simp at hforms

/-! ## More nodes than keys -/

/-- A text of `n` atoms. -/
def manyAtoms (n : ℕ) : String := printAll (List.replicate n (.atom "a"))

/-- The tokens of a text of atoms. -/
theorem tokensOf_manyAtoms (n : ℕ) :
    tokensOf (manyAtoms n) = Form.tokensAll (List.replicate n (.atom "a")) := by
  have hclean : CleanTokens (Form.tokensAll (List.replicate n (.atom "a"))) := by
    induction n with
    | zero =>
        intro value hvalue
        simp at hvalue
    | succ n ih =>
        intro value hvalue
        rw [List.replicate_succ, Form.tokensAll_cons, List.mem_append] at hvalue
        rcases hvalue with hfirst | hrest
        · obtain rfl : value = "a" := by simpa using hfirst
          exact ⟨by decide, List.forall_mem_singleton.mpr (by decide)⟩
        · exact ih value hrest
  have hlex := lex_printAll _ hclean [] endsAtom_nil
  rwa [List.append_nil, lex_nil, List.append_nil] at hlex

/-- A root has fewer than `2 ^ 32` children, whatever was parsed. -/
theorem not_rootList_of_le {n : ℕ} (hn : 2 ^ 32 ≤ n) :
    ¬ ∃ cs, tree.RootList cs ∧ List.Forall₂ tree.IsFormAlone cs (List.replicate n (.atom "a")) := by
  rintro ⟨cs, ⟨m, -, -, hl⟩, hforms⟩
  have hlength := hforms.length_eq
  have hlt := hl.length_lt
  rw [List.length_replicate] at hlength
  omega

/-- **With more nodes than keys the forms are not the children of the root**: a text of `2 ^ 32`
atoms is a sequence of forms, and is accepted in parentheses. -/
theorem wrapped_too_long :
    tokensOf (manyAtoms (2 ^ 32)) = Form.tokensAll (List.replicate (2 ^ 32) (.atom "a")) ∧
    ∃ tree, Answers (fun fuel => parse fuel (wrapped (manyAtoms (2 ^ 32)))) (.ok tree) ∧
      ¬ ∃ cs, tree.RootList cs ∧
        List.Forall₂ tree.IsFormAlone cs (List.replicate (2 ^ 32) (.atom "a")) := by
  have hforms := tokensOf_manyAtoms (2 ^ 32)
  obtain ⟨result, hanswers, haccepts⟩ := parse_wrapped_accepts_iff (manyAtoms (2 ^ 32))
  obtain ⟨tree, rfl⟩ := haccepts.mpr ⟨_, hforms⟩
  exact ⟨hforms, tree, hanswers, not_rootList_of_le le_rfl⟩

end Sexp
