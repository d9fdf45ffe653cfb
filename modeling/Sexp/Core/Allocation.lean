import Sexp.Core.WellFormed

/-! # Allocating refines adding a node

`alloc_atom` and `alloc_list` put an unlinked node into the slab. As long as the slab has at most
`2 ^ 32` slots the key is a fresh one, and the forest gains an isolated node. A new tree is a
single node. -/

namespace Sexp

open Library (OrderedForest)

variable {tree tree' : Tree} {F : OrderedForest NodeId NodeType} {id : NodeId} {kind : NodeType}

/-! ## Insertion of an unlinked node -/

/-- **Inserting an unlinked node** under a fresh key adds an isolated node to the forest. -/
theorem Tree.Represents.insert (h : tree.Represents F) (hslab : tree.nodes.WellFormed)
    {nodes : Slab Node} (hinsert : tree.nodes.insert (Node.unlinked kind) = .ok (nodes, id))
    (hfits : nodes.slots.length ≤ 2 ^ 32) :
    F.label id = none ∧ ({ tree with nodes } : Tree).Represents (F.setLabel id kind) := by
  obtain ⟨hfresh, hget⟩ := Slab.get_insert hslab hinsert hfits
  have hdead : F.label id = none := by simpa [hfresh] using (h id).symm
  refine ⟨hdead, fun m => ?_⟩
  rw [hget m]
  by_cases hm : m = id
  · subst hm
    -- a dead node of a forest has no parent and no children
    have hlabel : (F.setLabel m kind).label m = some kind := if_pos rfl
    have hparent : F.parent m = none := OrderedForest.parent_eq_none_of_dead hdead
    have hchildren : F.children m = [] := OrderedForest.children_eq_nil_of_dead hdead
    rw [if_pos rfl, hlabel, Option.map_some]
    simp [nodeOf, Node.unlinked, OrderedForest.setLabel, hparent, hchildren]
  · have hlabel : (F.setLabel id kind).label m = F.label m := if_neg hm
    rw [if_neg hm, h m, hlabel]
    rfl

/-- **One allocation**: `tree'` is `tree` with an unlinked node of this content at `id`. -/
structure Tree.Allocated (tree tree' : Tree) (id : NodeId) (kind : NodeType) : Prop where
  /-- Only the slab changes. -/
  frame : tree.SameFrame tree'
  /-- The slab gains the node. -/
  insert_eq : tree.nodes.insert (Node.unlinked kind) = .ok (tree'.nodes, id)

/-- What `allocAtom` does. -/
theorem allocAtom_ok {value : Atom} (h : tree.allocAtom value = .ok (tree', id)) :
    tree.Allocated tree' id (.atom value) := by
  rw [Tree.allocAtom] at h
  obtain ⟨⟨nodes, key⟩, hinsert, h⟩ := Library.bind_eq_ok.mp h
  simp only [Library.pure_eq_ok, Except.ok.injEq, Prod.mk.injEq] at h
  obtain ⟨rfl, rfl⟩ := h
  exact ⟨rfl, hinsert⟩

/-- What `allocList` does. -/
theorem allocList_ok (h : tree.allocList = .ok (tree', id)) : tree.Allocated tree' id .list := by
  rw [Tree.allocList] at h
  obtain ⟨⟨nodes, key⟩, hinsert, h⟩ := Library.bind_eq_ok.mp h
  simp only [Library.pure_eq_ok, Except.ok.injEq, Prod.mk.injEq] at h
  obtain ⟨rfl, rfl⟩ := h
  exact ⟨rfl, hinsert⟩

/-- `allocAtom` returns on a consistent slab. -/
theorem allocAtom_total (h : tree.nodes.WellFormed) (value : Atom) :
    ∃ tree' id, tree.allocAtom value = .ok (tree', id) := by
  obtain ⟨nodes, key, hinsert, -⟩ := h.insert (Node.newAtom value)
  exact ⟨_, key, by rw [Tree.allocAtom, hinsert]; rfl⟩

/-- `allocList` returns on a consistent slab. -/
theorem allocList_total (h : tree.nodes.WellFormed) :
    ∃ tree' id, tree.allocList = .ok (tree', id) := by
  obtain ⟨nodes, key, hinsert, -⟩ := h.insert Node.newList
  exact ⟨_, key, by rw [Tree.allocList, hinsert]; rfl⟩

namespace Tree.Allocated

/-- Allocation keeps the slab consistent. -/
theorem slab (h : tree.Allocated tree' id kind) (hslab : tree.nodes.WellFormed) :
    tree'.nodes.WellFormed := by
  obtain ⟨nodes, key, hinsert, hwf⟩ := hslab.insert (Node.unlinked kind)
  rw [h.insert_eq, Except.ok.injEq, Prod.mk.injEq] at hinsert
  exact hinsert.1 ▸ hwf

/-- Allocation keeps every live node. -/
theorem get_of_live (h : tree.Allocated tree' id kind) (hslab : tree.nodes.WellFormed)
    {m : NodeId} {n : Node} (hm : tree.nodes.get m = some n) : tree'.nodes.get m = some n :=
  Slab.get_insert_of_live hslab h.insert_eq hm

/-- **Allocation adds an isolated node** to the forest. -/
theorem represents (h : tree.Allocated tree' id kind) (hF : tree.Represents F)
    (hslab : tree.nodes.WellFormed) (hfits : tree'.nodes.slots.length ≤ 2 ^ 32) :
    F.label id = none ∧ tree'.Represents (F.setLabel id kind) := by
  obtain ⟨hdead, hrep⟩ := hF.insert hslab h.insert_eq hfits
  exact ⟨hdead, fun m => hrep m⟩

/-- Allocation keeps a tree consistent. -/
theorem consistent (h : tree.Allocated tree' id kind) (hc : tree.Consistent)
    (hfits : tree'.nodes.slots.length ≤ 2 ^ 32) : tree'.Consistent := by
  obtain ⟨F, hF⟩ := hc.exists_represents
  exact (h.represents hF hc.slab hfits).2.consistent (h.slab hc.slab)

/-- Allocation keeps a tree well-formed. -/
theorem wellFormed (h : tree.Allocated tree' id kind) (hwf : tree.WellFormed)
    (hfits : tree'.nodes.slots.length ≤ 2 ^ 32) : tree'.WellFormed := by
  refine ⟨h.consistent hwf.toConsistent hfits, ?_⟩
  obtain ⟨n, hn⟩ := Option.isSome_iff_exists.mp hwf.root_live
  rw [h.frame, Tree.Live, h.get_of_live hwf.slab hn]
  rfl

end Tree.Allocated

/-! ## A single node -/

/-- A slab with one unlinked node represents the forest with one isolated node. -/
theorem represents_single (kind : NodeType) :
    (Tree.fromRaw ⟨[some (Node.unlinked kind)], []⟩ ⟨0⟩).Represents
      (OrderedForest.empty.setLabel ⟨0⟩ kind) := by
  have hempty : (Tree.fromRaw Slab.new ⟨0⟩).Represents OrderedForest.empty := fun id => rfl
  have hinsert : Slab.new.insert (Node.unlinked kind) =
      .ok (⟨[some (Node.unlinked kind)], []⟩, ⟨0⟩) := rfl
  exact (hempty.insert Slab.wellFormed_new hinsert (by simp)).2

/-- A slab with one unlinked node is well-formed. -/
theorem wellFormed_single (kind : NodeType) :
    (Tree.fromRaw ⟨[some (Node.unlinked kind)], []⟩ ⟨0⟩).WellFormed := by
  refine ⟨(represents_single kind).consistent ?_, rfl⟩
  obtain ⟨slab', key, h, hwf⟩ := Slab.wellFormed_new.insert (Node.unlinked kind)
  rw [Slab.insert, Slab.new, Except.ok.injEq, Prod.mk.injEq] at h
  exact h.1 ▸ hwf

/-- **New nodes**: a slab of unlinked nodes, the first of which is the root, is well-formed. -/
theorem wellFormed_unlinked (kind : NodeType) (kinds : List NodeType)
    (hfits : kinds.length < 2 ^ 32) :
    (Tree.fromRaw ⟨(kind :: kinds).map (some ∘ Node.unlinked), []⟩ ⟨0⟩).WellFormed := by
  induction kinds using List.reverseRecOn with
  | nil => exact wellFormed_single kind
  | append_singleton kinds last ih =>
      rw [List.length_append, List.length_singleton] at hfits
      -- the last node is allocated when all others are there
      have hnew : (Tree.fromRaw ⟨(kind :: kinds).map (some ∘ Node.unlinked), []⟩ ⟨0⟩).Allocated
          (Tree.fromRaw ⟨(kind :: (kinds ++ [last])).map (some ∘ Node.unlinked), []⟩ ⟨0⟩)
          ⟨UInt32.ofNat (kind :: kinds).length⟩ last :=
        ⟨rfl, by simp [Slab.insert, Tree.fromRaw]⟩
      refine hnew.wellFormed (ih (by omega)) ?_
      rw [Tree.fromRaw, List.length_map, List.length_cons, List.length_append,
        List.length_singleton]
      omega

end Sexp
