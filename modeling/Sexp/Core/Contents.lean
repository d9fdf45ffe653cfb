import Sexp.Core.AnyTree

/-! # The contents of the nodes

No mutation makes up the content of a node: attaching and removing move the nodes of a tree around
or free them, and a copy has the contents of its source. What all contents of a tree satisfy
(`Tree.Contents`) is therefore kept by every one of them, whatever the links are. -/

namespace Sexp

variable {P : NodeType → Prop} {tree tree' : Tree} {n : NodeId} {fuel : Nat}

/-! ## Slabs -/

/-- **Every value that is live after an insertion** is the inserted one, or was live before. -/
theorem Slab.get_insert_cases {α : Type} {slab slab' : Slab α} {value v : α} {key id : Key}
    (h : slab.insert value = .ok (slab', key)) (hid : slab'.get id = some v) :
    v = value ∨ slab.get id = some v := by
  rw [insert] at h
  split at h
  · split at h
    · cases h
      rw [get, List.getElem?_set] at hid
      split at hid
      · exact .inl (Option.some.inj hid).symm
      · exact .inr hid
    · cases h
  · cases h
    rw [get, List.getElem?_append] at hid
    split at hid
    · exact .inr hid
    · rw [List.getElem?_singleton] at hid
      split at hid
      · exact .inl (Option.some.inj hid).symm
      · cases hid

/-! ## What keeps the contents -/

/-- **The content of every live node satisfies `P`.** -/
def Tree.Contents (P : NodeType → Prop) (tree : Tree) : Prop :=
  ∀ id m, tree.nodes.get id = some m → P m.kind

/-- The contents are in the nodes. -/
theorem Tree.Contents.of_nodes_eq (h : tree.Contents P) (heq : tree'.nodes = tree.nodes) :
    tree'.Contents P := by
  intro id m hm
  rw [heq] at hm
  exact h id m hm

/-- Rewriting nodes in place keeps what is true of their contents. -/
theorem Tree.Contents.of_rewrites {g : NodeId → Node → Node} (h : tree.Contents P)
    (hrewrites : tree.nodes.Rewrites tree'.nodes g) (hkind : ∀ id m, P m.kind → P (g id m).kind) :
    tree'.Contents P := by
  intro id m hm
  rw [hrewrites.get_eq, Option.map_eq_some_iff] at hm
  obtain ⟨old, hold, rfl⟩ := hm
  exact hkind id old (h id old hold)

/-- Relinking a tree keeps the contents. -/
theorem Tree.Relinked.contents (h : tree.Relinked tree') (hP : tree.Contents P) :
    tree'.Contents P := by
  obtain ⟨g, hg, hkind⟩ := h.rewrites
  refine hP.of_rewrites hg fun id m hm => ?_
  rwa [hkind]

/-- Allocating adds one content. -/
theorem Tree.Allocated.contents {id : NodeId} {kind : NodeType} (h : tree.Allocated tree' id kind)
    (hP : tree.Contents P) (hkind : P kind) : tree'.Contents P := by
  intro k m hm
  rcases Slab.get_insert_cases h.insert_eq hm with rfl | hold
  · exact hkind
  · exact hP k m hold

/-- The nodes that a removal leaves have their contents. -/
theorem remove_kind {id : NodeId} {m' : Node} (h : remove fuel tree n = .ok tree')
    (hm' : tree'.nodes.get id = some m') :
    ∃ m, tree.nodes.get id = some m ∧ m'.kind = m.kind := by
  obtain ⟨tree₁, hunlink, hdrop⟩ := Library.bind_eq_ok.mp h
  obtain ⟨old, -, -, hrewrites⟩ := unlink_ok hunlink
  refine dropSubtree_invariant
    (fun t => ∀ id m', t.nodes.get id = some m' →
      ∃ m, tree.nodes.get id = some m ∧ m'.kind = m.kind)
    (fun _ => True) ?_ (fun _ _ _ _ _ => ⟨fun _ _ => trivial, fun _ _ => trivial⟩) ?_ trivial hdrop
    id m' hm'
  · -- freeing a slot changes no other one
    intro t c ht _ id m hm
    have hget : (t.nodes.remove c).1.get id = some m := hm
    rw [Slab.get_remove] at hget
    split at hget
    · cases hget
    · exact ht id m hget
  · -- detaching writes links only
    intro id m hm
    rw [hrewrites.get_eq, Option.map_eq_some_iff] at hm
    obtain ⟨old, hold, rfl⟩ := hm
    exact ⟨old, hold, rfl⟩

/-- Removing keeps what is true of the contents. -/
theorem remove_contents (h : remove fuel tree n = .ok tree') (hP : tree.Contents P) :
    tree'.Contents P := by
  intro id m' hm'
  obtain ⟨m, hm, hkind⟩ := remove_kind h hm'
  rw [hkind]
  exact hP id m hm

/-! ## Copies -/

/-- The tree of a single node has one content. -/
theorem contents_single {kind : NodeType} (hkind : P kind) :
    (Tree.fromRaw ⟨[some (Node.unlinked kind)], []⟩ ⟨0⟩).Contents P := by
  have hinsert : Slab.new.insert (Node.unlinked kind) =
      .ok (⟨[some (Node.unlinked kind)], []⟩, ⟨0⟩) := rfl
  intro id m hm
  rcases Slab.get_insert_cases hinsert hm with rfl | hnone
  · exact hkind
  · cases hnone

/-- **A copy has contents of its source.** -/
theorem cloneSubtree_contents {source copy : Tree} (hsource : source.Contents P)
    (hne : n ≠ source.root) (h : cloneSubtree fuel source n = .ok copy) : copy.Contents P := by
  refine cloneSubtree_invariant (Tree.Contents P) hne
    (fun m hm => contents_single (hsource n m hm)) ?_ h
  intro t t₁ t₂ src m q id ht hm halloc happend
  have hkind : P m.kind := hsource src m hm
  exact (append_relinked happend).contents (halloc.contents ht hkind)

end Sexp
