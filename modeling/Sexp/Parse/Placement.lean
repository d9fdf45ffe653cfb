import Sexp.Core.Contents
import Sexp.Core.DepthFirst
import Sexp.Core.LeafAtoms
import Sexp.Parse.AnyText

/-! # Where the nodes are placed

The parser makes a node for every opening parenthesis and every atom, when it reads the token, and
puts it into the next slot. The slots of a parsed tree are therefore the tokens of the text, in
order and without the closing parentheses, and the depth-first iterator goes through them from the
first one to the last one (`parse_numbers_nodes`). When the atoms are leaves and are stored as
`Atom::new` stores their texts, the form of the root says what all slots hold
(`Tree.Numbered.shape_eq`). -/

namespace Sexp

open Library (OrderedForest Rose Spans Form Answers)

variable {fuel : Nat} {tree : Tree} {s : String} {form : Form String}
  {shape : Rose (Option NodeType)}

/-! ## What the tree of a form looks like -/

/-- The content of the node that a token makes. -/
def tokenKind? : Token → Option NodeType
  | .leftParen => some .list
  | .rightParen => none
  | .atom value => some (.atom (Atom.new value))

mutual

/-- What the tree of a form looks like. -/
def shapeOf : Form String → Rose (Option NodeType)
  | .atom value => .node (some (.atom (Atom.new value))) []
  | .list forms => .node (some .list) (shapesOf forms)

/-- What the trees of forms look like. -/
def shapesOf : List (Form String) → List (Rose (Option NodeType))
  | [] => []
  | form :: forms => shapeOf form :: shapesOf forms

end

/-- What the trees of forms look like, one by one. -/
theorem shapesOf_eq_map (forms : List (Form String)) : shapesOf forms = forms.map shapeOf := by
  induction forms with
  | nil => rw [shapesOf, List.map_nil]
  | cons form forms ih => rw [shapesOf, ih, List.map_cons]

mutual

/-- The nodes of a form in pre-order are those that its tokens make. -/
theorem ids_shapeOf (form : Form String) :
    (shapeOf form).ids = (form.tokens.filterMap tokenKind?).map some := by
  cases form with
  | atom value => simp [shapeOf, tokenKind?]
  | list forms => simp [shapeOf, tokenKind?, idsAll_shapesOf forms]

/-- The nodes of forms in pre-order are those that their tokens make. -/
theorem idsAll_shapesOf (forms : List (Form String)) :
    Rose.idsAll (shapesOf forms) = ((Form.tokensAll forms).filterMap tokenKind?).map some := by
  cases forms with
  | nil => simp [shapesOf]
  | cons form forms =>
      rw [shapesOf, Rose.idsAll_cons, ids_shapeOf form, idsAll_shapesOf forms]
      simp

end

/-- **A canonical content**: an atom is stored as `Atom::new` stores its text. -/
def NodeType.Canonical : NodeType → Prop
  | .atom value => value = Atom.new value.asStr
  | .list => True

/-- An atom that `Atom::new` has made is canonical. -/
theorem canonical_new (value : String) : (NodeType.atom (Atom.new value)).Canonical := by
  show Atom.new value = Atom.new (Atom.new value).asStr
  rw [Atom.asStr_new]

/-- What a tree with canonical leaf atoms looks like is determined by its form. -/
theorem map_eq_shapeOf {children : NodeId → List NodeId} {label : NodeId → Option NodeType}
    {r : Rose NodeId} (hr : Spans children r)
    (hleaf : ∀ id value, label id = some (.atom value) → children id = [])
    (hcanonical : ∀ m ∈ r.ids, ∃ kind, label m = some kind ∧ kind.Canonical) :
    r.map label = shapeOf (formOf label r) := by
  induction hr with
  | @node n ks hkids hspans ih =>
      obtain ⟨kind, hkind, hcanon⟩ := hcanonical n (by simp)
      rcases kind with value | _
      · -- an atom has no subtrees
        have hnil := hleaf n value hkind
        rw [hkids, List.map_eq_nil_iff] at hnil
        have hvalue : value = Atom.new value.asStr := hcanon
        rw [hnil, formOf_atom hkind, shapeOf, Rose.map_node, hkind, ← hvalue, Rose.mapAll_nil]
      · have hks : ks.map (Rose.map label) = ks.map (shapeOf ∘ formOf label) :=
          List.map_congr_left fun k hk => ih k hk fun m hm => hcanonical m (by
            rw [Rose.ids_node]
            exact List.mem_cons_of_mem n (Rose.mem_idsAll.mpr ⟨k, hk, hm⟩))
        rw [formOf_list hkind, shapeOf, shapesOf_eq_map, Rose.map_node, hkind, Rose.mapAll_eq_map,
          hks, List.map_map]

/-- **The form of the root says what a numbered tree looks like**, when its atoms are canonical
leaves. -/
theorem Tree.Numbered.shape_eq (h : tree.Numbered shape) (hdenotes : tree.Denotes tree.root form)
    (hleaf : tree.LeafAtoms) (hcanonical : tree.Contents NodeType.Canonical) :
    shape = shapeOf form := by
  obtain ⟨F, r, hF, hr, hroot, rfl, hids⟩ := h.nodes
  obtain ⟨G, r', hG, -, hr', hroot', rfl⟩ := hdenotes
  obtain rfl := hF.unique hG
  obtain rfl := hr.unique hr' (hroot.trans hroot'.symm)
  refine map_eq_shapeOf hr (hF.leafAtoms_iff.mp hleaf) fun m hm => ?_
  have hlt : m.slot ∈ List.range tree.nodes.slots.length := hids ▸ List.mem_map_of_mem hm
  have hlive := (hF.filled h.slab h.free_eq m).mpr (List.mem_range.mp hlt)
  obtain ⟨kind, hkind⟩ := Option.isSome_iff_exists.mp hlive
  exact ⟨kind, hkind, hcanonical m _ (hF.get_of_label hkind)⟩

/-! ## Parsed trees -/

/-- The atoms of a parsed tree are canonical. -/
theorem parse_canonical (h : parse fuel s = .ok (.ok tree)) : tree.Contents NodeType.Canonical :=
  parse_contents trivial (fun value _ => canonical_new value) h

/-- A text with tokens that `parse` accepts is the text of a form. -/
theorem exists_form (h : parse fuel s = .ok (.ok tree)) (hsome : tokensOf s ≠ []) :
    ∃ form : Form String, tokensOf s = form.tokens := by
  obtain ⟨result, hanswers, haccepts⟩ := parse_accepts_iff s
  obtain ⟨forms, hsingle, hforms⟩ := haccepts.mp ⟨tree, (hanswers.eq_of_ok (parse_mono s) h).symm⟩
  rcases forms with _ | ⟨form, _ | ⟨_, _⟩⟩
  · exact absurd hforms hsome
  · exact ⟨form, by rw [hforms, Form.tokensAll_cons, Form.tokensAll_nil, List.append_nil]⟩
  · simp at hsingle

/-- **`parse` numbers the nodes in the order of the text**: the slots hold a list for every opening
parenthesis and the atom of every other token but the closing parentheses, in order, and the
depth-first iterator goes from the root, in the first slot, through all slots in order. -/
theorem parse_numbers_nodes (h : parse fuel s = .ok (.ok tree))
    (hfew : (tokensOf s).length < 2 ^ 32) (hsome : tokensOf s ≠ []) :
    tree.nodes.slots.map (Option.map Node.kind) = ((tokensOf s).filterMap tokenKind?).map some ∧
      ∃ ids, Answers (fun fuel => (DepthFirstIter.new tree.root).collect fuel tree) ids ∧
        ids.map Key.slot = List.range tree.nodes.slots.length := by
  obtain ⟨form, hform⟩ := exists_form h hsome
  have hsize : form.size ≤ 2 ^ 32 := by
    rw [← Library.nodeCount_tokens form, ← hform]
    exact (Library.nodeCount_le_length _).trans hfew.le
  obtain ⟨tree', hanswers, hspells, shape, hnumbered⟩ := parse_form_numbered hform hsize
  obtain rfl : tree = tree' := by simpa using hanswers.eq_of_ok (parse_mono s) h
  refine ⟨?_, ?_⟩
  · rw [hnumbered.map_kind_slots, hnumbered.shape_eq hspells.denotes hspells.leafAtoms
      (parse_canonical h), ids_shapeOf, hform]
  · obtain ⟨F, r, hF, hr, hroot, -, hids⟩ := hnumbered.nodes
    have hlive : tree.Live r.root := hroot ▸ hspells.wellFormed.root_live
    exact ⟨r.ids, hroot ▸ DepthFirstIter.collect_answers hF hr hlive, hids⟩

/-- `parse_numbers_nodes` at a list of an atom. -/
theorem parse_numbers_nodes_list : ∃ fuel tree, parse fuel "(a)" = .ok (.ok tree) ∧
    tree.nodes.slots.map (Option.map Node.kind) = [some .list, some (.atom (Atom.new "a"))] := by
  have htokens : tokensOf "(a)" = (Form.list [.atom "a"]).tokens := by
    have ha : lex ['a', ')'] = .atom "a" :: lex [')'] :=
      lex_atom (List.cons_ne_nil 'a' []) (List.forall_mem_singleton.mpr rfl) fun c hc => by
        cases hc
        rfl
    change lex ['(', 'a', ')'] = _
    rw [lex_left, ha, lex_right, lex_nil]
    simp
  obtain ⟨tree, hanswers, -⟩ := parse_form htokens (by simp)
  obtain ⟨fuel, hfuel⟩ := hanswers.exists_fuel
  have hslots := (parse_numbers_nodes hfuel (by simp [htokens]) (by simp [htokens])).1
  refine ⟨fuel, tree, hfuel, hslots.trans ?_⟩
  simp [htokens, tokenKind?]

end Sexp
