import Sexp.Core.WellFormed
import Sexp.Library.Form

/-! # The form that a node denotes

The nesting, order and atom texts below a node of a tree, as a form of the grammar
`form ::= atom | '(' form* ')'`. The form does not see ids, links or the free list: two nodes are
structurally equal when they denote the same form. What hangs below an atom is not part of the
form; in a tree with leaf atoms there is nothing. -/

namespace Sexp

open Library (OrderedForest Rose Spans Form)

/-! ## Forms of rose trees -/

mutual

/-- The form of a rose tree whose nodes have these contents. -/
def formOf (label : NodeId → Option NodeType) : Rose NodeId → Form String
  | .node n ks =>
      match label n with
      | some (.atom value) => .atom value.asStr
      | _ => .list (formsOf label ks)

/-- The forms of rose trees whose nodes have these contents. -/
def formsOf (label : NodeId → Option NodeType) : List (Rose NodeId) → List (Form String)
  | [] => []
  | k :: ks => formOf label k :: formsOf label ks

end

variable {label label' : NodeId → Option NodeType}

@[simp] theorem formsOf_nil : formsOf label [] = [] := by
  rw [formsOf]

@[simp] theorem formsOf_cons (k : Rose NodeId) (ks : List (Rose NodeId)) :
    formsOf label (k :: ks) = formOf label k :: formsOf label ks := by
  rw [formsOf]

/-- The forms of rose trees, one by one. -/
theorem formsOf_eq_map (ks : List (Rose NodeId)) : formsOf label ks = ks.map (formOf label) := by
  induction ks with
  | nil => simp
  | cons k ks ih => simp [ih]

/-- The form of a tree with an atom at its root. -/
theorem formOf_atom {n : NodeId} {value : Atom} (h : label n = some (.atom value))
    (ks : List (Rose NodeId)) : formOf label (.node n ks) = .atom value.asStr := by
  rw [formOf, h]

/-- The form of a tree with a list at its root. -/
theorem formOf_list {n : NodeId} (h : label n = some .list) (ks : List (Rose NodeId)) :
    formOf label (.node n ks) = .list (ks.map (formOf label)) := by
  rw [formOf, h, formsOf_eq_map]

mutual

/-- **Framing.** The form of a tree depends on the contents of its own nodes only. -/
theorem formOf_congr (r : Rose NodeId) (h : ∀ x ∈ r.ids, label' x = label x) :
    formOf label' r = formOf label r := by
  match r with
  | .node n ks =>
      rw [Rose.ids_node] at h
      rw [formOf, formOf, h n List.mem_cons_self,
        formsOf_congr ks fun x hx => h x (List.mem_cons_of_mem n hx)]

/-- The forms of trees depend on the contents of their own nodes only. -/
theorem formsOf_congr (ks : List (Rose NodeId)) (h : ∀ x ∈ Rose.idsAll ks, label' x = label x) :
    formsOf label' ks = formsOf label ks := by
  match ks with
  | [] => simp
  | k :: ks =>
      rw [Rose.idsAll_cons] at h
      rw [formsOf_cons, formsOf_cons, formOf_congr k fun x hx => h x (List.mem_append_left _ hx),
        formsOf_congr ks fun x hx => h x (List.mem_append_right _ hx)]

end

/-! ## Forms of nodes -/

/-- **A live node of a tree denotes a form**: the form of the rose tree below it. -/
def Tree.Denotes (tree : Tree) (id : NodeId) (form : Form String) : Prop :=
  ∃ F r, tree.Represents F ∧ (F.label id).isSome ∧ Spans F.children r ∧ r.root = id ∧
    formOf F.label r = form

variable {tree : Tree} {F : OrderedForest NodeId NodeType} {id : NodeId}

/-- A node that denotes a form is live. -/
theorem Tree.Denotes.live {form : Form String} (h : tree.Denotes id form) : tree.Live id := by
  obtain ⟨F, r, hF, hlive, -, -, -⟩ := h
  exact hF.live_iff.mpr hlive

/-- A node denotes at most one form. -/
theorem Tree.Denotes.unique {form form' : Form String} (h : tree.Denotes id form)
    (h' : tree.Denotes id form') : form = form' := by
  obtain ⟨F, r, hF, -, hr, hroot, rfl⟩ := h
  obtain ⟨F', r', hF', -, hr', hroot', rfl⟩ := h'
  obtain rfl : F = F' := hF.unique hF'
  rw [hr.unique hr' (hroot.trans hroot'.symm)]

/-- **Every live node of a consistent tree denotes a form.** -/
theorem Tree.Consistent.exists_denotes (h : tree.Consistent) (hid : tree.Live id) :
    ∃ form, tree.Denotes id form := by
  obtain ⟨F, hF⟩ := h.exists_represents
  obtain ⟨r, hroot, hr⟩ := F.exists_spans id
  exact ⟨_, F, r, hF, hF.live_iff.mp hid, hr, hroot, rfl⟩

/-- **The children of a node that denotes a list** denote the members of the list, one by one. -/
theorem Tree.Denotes.children {forms : List (Form String)} (h : tree.Denotes id (.list forms)) :
    ∃ n l, tree.nodes.get id = some n ∧ n.kind = .list ∧ tree.IsChildList id n l ∧
      List.Forall₂ tree.Denotes l forms := by
  obtain ⟨F, ⟨root, ks⟩, hF, hlive, hr, rfl, hform⟩ := h
  obtain ⟨kind, hkind⟩ := Option.isSome_iff_exists.mp hlive
  rw [Rose.root_node] at hkind hlive ⊢
  have hn : tree.nodes.get root = some (nodeOf F root kind) := hF.get_of_label hkind
  rcases kind with value | _
  · rw [formOf_atom hkind] at hform
    cases hform
  · rw [formOf_list hkind] at hform
    cases hform
    have hroots : F.children root = ks.map Rose.root := hr.children_root
    refine ⟨_, _, hn, rfl, hF.isChildList hn, ?_⟩
    rw [hroots, List.forall₂_map_left_iff, List.forall₂_map_right_iff, List.forall₂_same]
    intro k hk
    exact ⟨F, k, hF, hF.live_iff.mp (hF.live_kids hroots k hk), hr.kids k hk, rfl, rfl⟩

/-! ## Leaf atoms -/

/-- **Leaf atoms**: no atom node has children. -/
def Tree.LeafAtoms (tree : Tree) : Prop :=
  ∀ id n, tree.nodes.get id = some n → n.isAtom = true →
    n.childCount = 0 ∧ n.firstChild = none ∧ n.lastChild = none

/-- On a tree that represents a forest, atoms are leaves iff they have no children in the forest. -/
theorem Tree.Represents.leafAtoms_iff (h : tree.Represents F) :
    tree.LeafAtoms ↔ ∀ id value, F.label id = some (.atom value) → F.children id = [] := by
  constructor
  · intro hleaf id value hlabel
    have hn : tree.nodes.get id = some (nodeOf F id (.atom value)) := h.get_of_label hlabel
    have hfirst := (hleaf id _ hn rfl).2.1
    rcases hc : F.children id with _ | ⟨c, cs⟩
    · rfl
    · simp [nodeOf, hc] at hfirst
  · intro hleaf id n hn hatom
    obtain ⟨hlabel, heq⟩ := h.eq_nodeOf hn
    rcases hkind : n.kind with value | _
    · have hchildren := hleaf id value (hlabel.trans (congrArg some hkind))
      rw [heq]
      simp [nodeOf, hchildren]
    · simp [Node.isAtom, hkind] at hatom

end Sexp
