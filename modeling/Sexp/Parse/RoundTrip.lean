import Sexp.Parse.Correctness
import Sexp.Serialize.Printing

/-! # Parsing undoes printing

The text of a form whose atoms are clean, that is, non-empty and without parentheses and
whitespace, has the token sequence of the form (`lex_print`): parentheses stand for themselves, and
an atom is always followed by a space, a closing parenthesis or the end of the text. So parsing the
serialization of a node gives back the form that the node denotes. -/

namespace Sexp

open Library (Rose Form Answers)

/-! ## Clean atoms -/

/-- **A clean atom**: a non-empty text without parentheses and whitespace. -/
def CleanAtom (value : String) : Prop :=
  value ≠ "" ∧ ∀ c ∈ value.toList, c ∉ ['(', ')', ' ', '\t', '\n', '\r']

/-- No character of a clean atom ends it. -/
theorem CleanAtom.isStop_eq {value : String} (h : CleanAtom value) :
    ∀ c ∈ value.toList, isStop c = false := fun c hc => by
  have hne := h.2 c hc
  simp only [List.mem_cons, List.not_mem_nil, or_false, not_or] at hne
  simp [isStop, isSpace, hne]

/-- What may stand behind an atom: nothing, or a character that ends it. -/
def EndsAtom (rest : List Char) : Prop := ∀ c, rest.head? = some c → isStop c = true

/-- Behind an atom its text may end. -/
theorem endsAtom_nil : EndsAtom [] := by
  simp [EndsAtom]

/-- Parentheses and whitespace may stand behind an atom. -/
theorem endsAtom_cons {c : Char} (h : isStop c = true) (rest : List Char) :
    EndsAtom (c :: rest) := by
  simp [EndsAtom, h]

/-- The atoms of a form are clean. -/
def CleanTokens (ts : List Token) : Prop := ∀ value, .atom value ∈ ts → CleanAtom value

/-! ## The tokens of a printed form -/

/-- Behind a form in a list stands a space or the end of the list. -/
theorem endsAtom_printRest (forms : List (Form String)) {rest : List Char} (h : EndsAtom rest) :
    EndsAtom ((printRest forms).toList ++ rest) := by
  cases forms with
  | nil => simpa [printRest] using h
  | cons form forms =>
      rw [printRest, String.toList_append, String.toList_append, List.append_assoc,
        List.append_assoc]
      exact endsAtom_cons rfl _

mutual

/-- **The text of a clean form has the token sequence of the form**, also in front of other
text. -/
theorem lex_print (form : Form String) (h : CleanTokens form.tokens) (rest : List Char)
    (hrest : EndsAtom rest) : lex ((print form).toList ++ rest) = form.tokens ++ lex rest := by
  match form with
  | .atom value =>
      have hclean : CleanAtom value := h value (by simp)
      have hne : value.toList ≠ [] := fun hnil => hclean.1 (String.toList_eq_nil_iff.mp hnil)
      rw [print, lex_atom hne hclean.isStop_eq hrest, String.ofList_toList]
      rfl
  | .list forms =>
      have hforms : CleanTokens (Form.tokensAll forms) := fun value hvalue => h value (by
        simp [hvalue])
      have hclose : EndsAtom (')' :: rest) := endsAtom_cons rfl rest
      rw [print, Form.tokens_list, String.toList_append, String.toList_append, List.append_assoc,
        List.append_assoc]
      change lex ('(' :: ((printAll forms).toList ++ ')' :: rest)) = _
      rw [lex_left, lex_printAll forms hforms _ hclose, lex_right]
      simp

/-- The texts of clean forms, joined by spaces, have the token sequence of the forms. -/
theorem lex_printAll (forms : List (Form String)) (h : CleanTokens (Form.tokensAll forms))
    (rest : List Char) (hrest : EndsAtom rest) :
    lex ((printAll forms).toList ++ rest) = Form.tokensAll forms ++ lex rest := by
  match forms with
  | [] => simp [printAll]
  | form :: forms =>
      rw [Form.tokensAll_cons] at h ⊢
      rw [printAll, String.toList_append, List.append_assoc,
        lex_print form (fun value hvalue => h value (List.mem_append_left _ hvalue)) _
          (endsAtom_printRest forms hrest),
        lex_printRest forms (fun value hvalue => h value (List.mem_append_right _ hvalue)) rest
          hrest, List.append_assoc]

/-- The texts of clean forms, each preceded by a space, have the token sequence of the forms. -/
theorem lex_printRest (forms : List (Form String)) (h : CleanTokens (Form.tokensAll forms))
    (rest : List Char) (hrest : EndsAtom rest) :
    lex ((printRest forms).toList ++ rest) = Form.tokensAll forms ++ lex rest := by
  match forms with
  | [] => simp [printRest]
  | form :: forms =>
      rw [Form.tokensAll_cons] at h ⊢
      rw [printRest, String.toList_append, String.toList_append, List.append_assoc,
        List.append_assoc]
      change lex (' ' :: ((print form).toList ++ ((printRest forms).toList ++ rest))) = _
      rw [lex_space rfl,
        lex_print form (fun value hvalue => h value (List.mem_append_left _ hvalue)) _
          (endsAtom_printRest forms hrest),
        lex_printRest forms (fun value hvalue => h value (List.mem_append_right _ hvalue)) rest
          hrest, List.append_assoc]

end

/-- The text of a clean form has the token sequence of the form. -/
theorem tokensOf_print {form : Form String} (h : CleanTokens form.tokens) :
    tokensOf (print form) = form.tokens := by
  have := lex_print form h [] endsAtom_nil
  rwa [List.append_nil, lex_nil, List.append_nil] at this

/-- **Printing is injective** on forms with clean atoms. -/
theorem print_inj {form form' : Form String} (h : CleanTokens form.tokens)
    (h' : CleanTokens form'.tokens) : print form = print form' ↔ form = form' := by
  constructor
  · intro hprint
    have htokens : form.tokens = form'.tokens := by
      rw [← tokensOf_print h, hprint, tokensOf_print h']
    exact Library.tokens_inj.mp htokens
  · rintro rfl
    rfl

/-! ## The forms of nodes -/

variable {label : NodeId → Option NodeType}

mutual

/-- The atoms of the form of a rose tree are the atoms of its nodes. -/
theorem exists_of_mem_tokens (r : Rose NodeId) {value : String}
    (h : .atom value ∈ (formOf label r).tokens) :
    ∃ m ∈ r.ids, ∃ atom, label m = some (.atom atom) ∧ atom.asStr = value := by
  match r with
  | .node n ks =>
      rw [formOf] at h
      split at h
      · rename_i atom hlabel
        obtain rfl : value = atom.asStr := by simpa using h
        exact ⟨n, by simp, atom, hlabel, rfl⟩
      · obtain ⟨m, hm, hatom⟩ := exists_of_mem_tokensAll ks (by simpa using h)
        exact ⟨m, by simp [hm], hatom⟩

/-- The atoms of the forms of rose trees are the atoms of their nodes. -/
theorem exists_of_mem_tokensAll (ks : List (Rose NodeId)) {value : String}
    (h : .atom value ∈ Form.tokensAll (formsOf label ks)) :
    ∃ m ∈ Rose.idsAll ks, ∃ atom, label m = some (.atom atom) ∧ atom.asStr = value := by
  match ks with
  | [] => simp at h
  | k :: ks =>
      rw [formsOf_cons, Form.tokensAll_cons, List.mem_append] at h
      rcases h with h | h
      · obtain ⟨m, hm, hatom⟩ := exists_of_mem_tokens k h
        exact ⟨m, by simp [hm], hatom⟩
      · obtain ⟨m, hm, hatom⟩ := exists_of_mem_tokensAll ks h
        exact ⟨m, by simp [hm], hatom⟩

end

mutual

/-- A form has at most as many nodes as the rose tree it is read from. -/
theorem size_formOf_le (r : Rose NodeId) : (formOf label r).size ≤ r.ids.length := by
  match r with
  | .node n ks =>
      have := sizeAll_formsOf_le ks
      rw [formOf]
      split <;> simp only [Form.size_atom, Form.size_list, Rose.ids_node, List.length_cons] <;>
        omega

/-- Forms have at most as many nodes as the rose trees they are read from. -/
theorem sizeAll_formsOf_le (ks : List (Rose NodeId)) :
    Form.sizeAll (formsOf label ks) ≤ (Rose.idsAll ks).length := by
  match ks with
  | [] => simp
  | k :: ks =>
      have := size_formOf_le k
      have := sizeAll_formsOf_le ks
      rw [formsOf_cons, Form.sizeAll_cons, Rose.idsAll_cons, List.length_append]
      omega

end

variable {tree : Tree} {n : NodeId} {form : Form String}

/-- The form of a node has at most as many nodes as there are keys. -/
theorem Tree.Denotes.size_le (h : tree.Denotes n form) : form.size ≤ 2 ^ 32 := by
  obtain ⟨F, r, -, -, hr, -, rfl⟩ := h
  exact (size_formOf_le r).trans
    (Key.length_le_of_nodup (F.nodup_ids hr) fun key _ => key.index.toNat_lt)

/-- The atoms of the form of a node are the atoms at or below the node. -/
theorem Tree.Denotes.cleanTokens (h : tree.Denotes n form)
    (hclean : ∀ m node value, tree.AncestorOrSelf n m → tree.nodes.get m = some node →
      node.kind = .atom value → CleanAtom value.asStr) : CleanTokens form.tokens := by
  obtain ⟨F, r, hF, hlive, hr, hroot, rfl⟩ := h
  intro value hvalue
  obtain ⟨m, hm, atom, hlabel, rfl⟩ := exists_of_mem_tokens r hvalue
  have hbelow : tree.AncestorOrSelf n m := by
    rw [hF.ancestorOrSelf_iff, ← hroot]
    exact (F.mem_ids_iff_mem_subtree hr).mp hm
  have hnode : tree.nodes.get m = some (nodeOf F m (.atom atom)) := hF.get_of_label hlabel
  exact hclean m _ atom hbelow hnode rfl

/-! ## The round trip -/

/-- **Decoding undoes encoding.** In every consistent tree, serializing a live node with clean
atoms at and below it gives a text that `parse` accepts, and the root of the parsed tree denotes
the same form as the node. -/
theorem parse_serializeNode (hc : tree.Consistent) (hn : tree.Live n)
    (hclean : ∀ m node value, tree.AncestorOrSelf n m → tree.nodes.get m = some node →
      node.kind = .atom value → CleanAtom value.asStr) :
    ∃ text parsed form, Answers (fun fuel => serializeNode fuel tree n) text ∧
      Answers (fun fuel => parse fuel text) (.ok parsed) ∧ parsed.WellFormed ∧
      parsed.LeafAtoms ∧ tree.Denotes n form ∧ parsed.Denotes parsed.root form := by
  obtain ⟨form, hform⟩ := hc.exists_denotes hn
  obtain ⟨parsed, hparsed, hspells⟩ :=
    parse_form (tokensOf_print (hform.cleanTokens hclean)) hform.size_le
  exact ⟨print form, parsed, form, serializeNode_answers hform, hparsed, hspells.wellFormed,
    hspells.leafAtoms, hform, hspells.denotes⟩

/-- The atoms of `mixedTree` are clean. -/
theorem mixedTree_cleanAtom {id : NodeId} {node : Node} {value : Atom}
    (hnode : mixedTree.nodes.get id = some node) (hkind : node.kind = .atom value) :
    CleanAtom value.asStr := by
  have hslot := Slab.mem_slots hnode
  simp only [mixedTree, List.mem_cons, List.not_mem_nil, or_false, Option.some.injEq] at hslot
  rcases hslot with rfl | rfl | rfl | rfl | rfl | rfl | rfl
  · cases hkind
  · cases hkind
  · obtain rfl : Atom.new "a" = value := NodeType.atom.inj hkind
    exact ⟨by decide, List.forall_mem_singleton.mpr (by decide)⟩
  · cases hkind
  · obtain rfl : Atom.new "b" = value := NodeType.atom.inj hkind
    exact ⟨by decide, List.forall_mem_singleton.mpr (by decide)⟩
  · obtain rfl : Atom.new "c" = value := NodeType.atom.inj hkind
    exact ⟨by decide, List.forall_mem_singleton.mpr (by decide)⟩
  · cases hkind

/-- `parse_serializeNode` at the root of `mixedTree`. -/
theorem parse_serializeNode_mixedTree :
    ∃ parsed form, Answers (fun fuel => serializeNode fuel mixedTree ⟨0⟩) "((a (b)) c ())" ∧
      Answers (fun fuel => parse fuel "((a (b)) c ())") (.ok parsed) ∧ parsed.WellFormed ∧
      parsed.LeafAtoms ∧ mixedTree.Denotes ⟨0⟩ form ∧ parsed.Denotes parsed.root form := by
  have htext : serializeNode 20 mixedTree ⟨0⟩ = .ok "((a (b)) c ())" := by decide +kernel
  obtain ⟨text, parsed, form, hanswers, hrest⟩ :=
    parse_serializeNode mixedTree_wellFormed.toConsistent (rfl : mixedTree.Live ⟨0⟩)
      fun _ _ _ _ hnode hkind => mixedTree_cleanAtom hnode hkind
  obtain rfl := hanswers.eq_of_ok (serializeNode_mono _ _) htext
  exact ⟨parsed, form, hanswers, hrest⟩

end Sexp
