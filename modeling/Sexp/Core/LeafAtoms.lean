import Sexp.Core.AnyTree

/-! # Leaf atoms

In a tree whose atoms have no children, the form of a node spells out everything that is attached
below it: its parts are the forms of these nodes, one by one (`Tree.Shows`). Moving a node under a
list, deleting a subtree and copying keep atoms leaves; a copy has one node for each node that it
spells out (`Tree.CopyOf.live_iff`). -/

namespace Sexp

open Library (OrderedForest Rose Spans Form)

variable {tree tree' : Tree} {F G : OrderedForest NodeId NodeType} {n : NodeId} {fuel : Nat}

/-! ## Rose trees with leaf atoms -/

/-- **A rose tree of contents in which atoms are leaves.** -/
inductive LeafRose : Rose (Option NodeType) → Prop where
  /-- A node, which has no subtrees if it is an atom. -/
  | node {kind : Option NodeType} {ks : List (Rose (Option NodeType))}
      (hatom : ∀ value, kind = some (.atom value) → ks = []) (hkids : ∀ k ∈ ks, LeafRose k) :
      LeafRose (.node kind ks)

/-- The rose trees of a forest in which atoms have no children have leaf atoms. -/
theorem leafRose_of_spans {r : Rose NodeId}
    (hleaf : ∀ id value, F.label id = some (.atom value) → F.children id = [])
    (hr : Spans F.children r) : LeafRose (r.map F.label) := by
  induction hr with
  | @node m ks hkids hspans ih =>
      rw [Rose.map_node, Rose.mapAll_eq_map]
      refine .node (fun value hvalue => ?_) fun q hq => ?_
      · have hnil := hleaf m value hvalue
        rw [hkids, List.map_eq_nil_iff] at hnil
        rw [hnil, List.map_nil]
      · obtain ⟨k, hk, rfl⟩ := List.mem_map.mp hq
        exact ih k hk

/-! ## What a form spells out -/

/-- **A form shows everything below a node**: it is the form of the node, and its parts are, in
order, the forms of the node and of all the nodes attached below it, each of which occurs once. -/
structure Tree.Shows (tree : Tree) (n : NodeId) (form : Form String) : Prop where
  /-- The form of the node. -/
  denotes : tree.Denotes n form
  /-- The forms of what is attached below it. -/
  parts : ∃ below : List NodeId, below.Nodup ∧ (∀ m, m ∈ below ↔ tree.AncestorOrSelf n m) ∧
    List.Forall₂ tree.Denotes below form.parts

/-- The nodes of a rose tree with leaf atoms denote the parts of its form. -/
theorem Tree.Represents.denotes_parts (hF : tree.Represents F) {r : Rose NodeId}
    (hr : Spans F.children r) (hlive : (F.label r.root).isSome)
    (hleaf : LeafRose (r.map F.label)) :
    List.Forall₂ tree.Denotes r.ids (formOf F.label r).parts := by
  induction hr with
  | @node m ks hkids hspans ih =>
      have hself : tree.Denotes m (formOf F.label (.node m ks)) :=
        ⟨F, .node m ks, hF, hlive, .node hkids hspans, rfl, rfl⟩
      rw [Rose.map_node, Rose.mapAll_eq_map] at hleaf
      cases hleaf with
      | node hatom hleafs =>
        obtain ⟨kind, hkind⟩ := Option.isSome_iff_exists.mp hlive
        rw [Rose.root_node] at hkind
        rcases kind with value | _
        · -- an atom has no subtrees
          have hnil : ks = [] := List.map_eq_nil_iff.mp (hatom value hkind)
          subst hnil
          rw [formOf_atom hkind] at hself ⊢
          rw [Form.parts_atom, Rose.ids_node, Rose.idsAll_nil]
          exact .cons hself .nil
        · rw [formOf_list hkind] at hself ⊢
          rw [Form.parts_list, Rose.ids_node]
          refine .cons hself ?_
          -- the subtrees one after the other
          have hlives : ∀ k ∈ ks, (F.label k.root).isSome := by
            intro k hk
            refine F.live_child (p := m) (F.mem_children.mp ?_)
            rw [hkids]
            exact List.mem_map_of_mem hk
          have hall : ∀ ls : List (Rose NodeId), (∀ k ∈ ls, k ∈ ks) →
              List.Forall₂ tree.Denotes (Rose.idsAll ls)
                (Form.partsAll (ls.map (formOf F.label))) := by
            intro ls
            induction ls with
            | nil =>
                intro _
                simp
            | cons k ls ihls =>
                intro hmem
                have hk : k ∈ ks := hmem k List.mem_cons_self
                rw [Rose.idsAll_cons, List.map_cons, Form.partsAll_cons]
                refine List.rel_append ?_ (ihls fun q hq => hmem q (List.mem_cons_of_mem k hq))
                exact ih k hk (hlives k hk) (hleafs _ (List.mem_map_of_mem hk))
          exact hall ks fun _ hk => hk

/-- A form shows everything below the root of a rose tree with leaf atoms. -/
theorem Tree.Represents.shows (hF : tree.Represents F) {r : Rose NodeId}
    (hr : Spans F.children r) (hlive : (F.label r.root).isSome)
    (hleaf : LeafRose (r.map F.label)) : tree.Shows r.root (formOf F.label r) := by
  refine ⟨⟨F, r, hF, hlive, hr, rfl, rfl⟩, r.ids, F.nodup_ids hr, fun m => ?_,
    hF.denotes_parts hr hlive hleaf⟩
  rw [hF.ancestorOrSelf_iff, OrderedForest.mem_ids_iff_mem_subtree hr]

/-- **In a tree with leaf atoms the form of a node shows everything below it.** -/
theorem Tree.Consistent.shows (hcons : tree.Consistent) (hleaf : tree.LeafAtoms)
    (hn : tree.Live n) : ∃ form, tree.Shows n form := by
  obtain ⟨F, hF⟩ := hcons.exists_represents
  obtain ⟨r, rfl, hr⟩ := F.exists_spans n
  have hlive := hF.live_iff.mp hn
  exact ⟨_, hF.shows hr hlive (leafRose_of_spans (hF.leafAtoms_iff.mp hleaf) hr)⟩

/-! ## What keeps atoms leaves -/

/-- An atom of a forest is an atom of the tree. -/
theorem Tree.Represents.isAtom_of_label (hF : tree.Represents F) {value : Atom}
    (hlabel : F.label n = some (.atom value)) :
    ∃ m, tree.nodes.get n = some m ∧ m.isAtom = true := by
  refine ⟨nodeOf F n (.atom value), ?_, rfl⟩
  rw [hF n, hlabel]
  rfl

/-- Moving a node under a list keeps atoms leaves. -/
theorem Tree.Moved.leafAtoms {parent child : NodeId} {put : List NodeId → List NodeId}
    (hmoved : tree.Moved tree' parent child put) (hleaf : tree.LeafAtoms)
    (hlist : ∀ m, tree.nodes.get parent = some m → m.isAtom = false) : tree'.LeafAtoms := by
  obtain ⟨F, G, hF, hG, hlabel, -, hchildren⟩ := hmoved
  rw [hG.leafAtoms_iff]
  intro id value hid
  rw [hlabel] at hid
  have hnil := hF.leafAtoms_iff.mp hleaf id value hid
  have hne : id ≠ parent := by
    rintro rfl
    obtain ⟨m, hm, hatom⟩ := hF.isAtom_of_label hid
    rw [hlist m hm] at hatom
    cases hatom
  rw [hchildren, if_neg hne, hnil, List.erase_nil]

/-- Deleting a subtree keeps atoms leaves. -/
theorem Tree.Deleted.leafAtoms (hdeleted : tree.Deleted tree' n) (hleaf : tree.LeafAtoms) :
    tree'.LeafAtoms := by
  obtain ⟨F, G, hF, hG, hdead, hrest⟩ := hdeleted
  rw [hG.leafAtoms_iff]
  intro id value hid
  by_cases hsub : id ∈ F.subtree n
  · rw [hdead id hsub] at hid
    cases hid
  · obtain ⟨hlabel, -, hchildren⟩ := hrest id hsub
    rw [hlabel] at hid
    rw [hchildren, hF.leafAtoms_iff.mp hleaf id value hid, List.erase_nil]

/-- A new node has no children, so allocating keeps atoms leaves. -/
theorem Tree.Allocated.leafAtoms {id : NodeId} {kind : NodeType}
    (halloc : tree.Allocated tree' id kind) (hslab : tree.nodes.WellFormed)
    (hleaf : tree.LeafAtoms) (hfits : tree'.nodes.slots.length ≤ 2 ^ 32) : tree'.LeafAtoms := by
  obtain ⟨-, hget⟩ := Slab.get_insert hslab halloc.insert_eq hfits
  intro m node hm hatom
  rw [hget] at hm
  split at hm
  · cases hm
    exact ⟨rfl, rfl, rfl⟩
  · exact hleaf m node hm hatom

/-- The node of a tree of a single node has no children. -/
theorem leafAtoms_single (kind : NodeType) :
    (Tree.fromRaw ⟨[some (Node.unlinked kind)], []⟩ ⟨0⟩).LeafAtoms := by
  rw [(represents_single kind).leafAtoms_iff]
  intro id value _
  rfl

/-- In a consistent tree with leaf atoms every parent is a list. -/
theorem Tree.LeafAtoms.parent_isList (hleaf : tree.LeafAtoms) (hcons : tree.Consistent)
    {id p : NodeId} (hparent : tree.parentOf id = some p) :
    ∃ m, tree.nodes.get p = some m ∧ m.isAtom = false := by
  obtain ⟨F, hF⟩ := hcons.exists_represents
  rw [hF.parentOf_eq] at hparent
  obtain ⟨m, hm⟩ := Option.isSome_iff_exists.mp (hF.live_iff.mpr (F.live_parent hparent))
  rw [← F.mem_children] at hparent
  refine ⟨m, hm, ?_⟩
  cases hatom : m.isAtom with
  | false => rfl
  | true =>
      obtain ⟨hcount, -, -⟩ := hleaf p m hm hatom
      have hlength := (hF.isChildList hm).length_eq
      rw [hcount] at hlength
      rw [List.eq_nil_of_length_eq_zero hlength] at hparent
      cases hparent

/-! ## Copies -/

/-- In a spanning tree with leaf atoms, atoms have no children. -/
theorem children_of_leafRose {r : Rose NodeId} (hr : Spans F.children r)
    (hleaf : LeafRose (r.map F.label)) :
    ∀ x ∈ r.ids, ∀ value, F.label x = some (.atom value) → F.children x = [] := by
  induction hr with
  | @node m ks hkids hspans ih =>
      rw [Rose.map_node, Rose.mapAll_eq_map] at hleaf
      cases hleaf with
      | node hatom hleafs =>
        intro x hx value hvalue
        rw [Rose.ids_node, List.mem_cons, Rose.mem_idsAll] at hx
        rcases hx with rfl | ⟨k, hk, hx⟩
        · rw [hkids, List.map_eq_nil_iff.mp (hatom value hvalue), List.map_nil]
        · exact ih k hk (hleafs _ (List.mem_map_of_mem hk)) x hx value hvalue

/-- What a copy takes along of a tree with leaf atoms is the whole tree. -/
theorem copied_of_leafRose {label : NodeId → Option NodeType} {r : Rose NodeId}
    (hleaf : LeafRose (r.map label)) : copied label r = r := by
  rcases r with ⟨m, ks⟩
  rw [Rose.map_node, Rose.mapAll_eq_map] at hleaf
  cases hleaf with
  | node hatom _ =>
    rw [copied, Rose.root_node]
    split
    · rename_i value hvalue
      rw [List.map_eq_nil_iff.mp (hatom value hvalue)]
    · rfl

namespace Tree.CopyOf

variable {copy : Tree} {label : NodeId → Option NodeType} {r : Rose NodeId}

/-- **The live nodes of a copy are its root and what is attached below it.** -/
theorem live_iff (h : copy.CopyOf label r) {m : NodeId} :
    copy.Live m ↔ copy.AncestorOrSelf copy.root m := by
  obtain ⟨G, r', hG, hlive, hr', hroot, hmap⟩ := h.shape
  rw [hG.ancestorOrSelf_iff, ← hroot, ← OrderedForest.mem_ids_iff_mem_subtree hr']
  constructor
  · -- there are as many nodes below the root as there are slots
    intro hm
    have hlength : r'.ids.length = r.ids.length := by
      have hids := congrArg (fun q => (Rose.ids q).length) hmap
      simpa only [Rose.ids_map, List.length_map] using hids
    have hslots : copy.nodes.slots.length = r'.ids.length := by
      have hlen := h.len_eq
      rw [Tree.len, Slab.len, h.free_eq, List.length_nil, Nat.sub_zero] at hlen
      rw [hlen, hlength]
    refine Key.mem_of_nodup (G.nodup_ids hr') (fun k hk => ?_) hslots.le
      (Slab.slot_lt_of_live hm)
    exact Slab.slot_lt_of_live (hG.live_of_mem_ids hr' (hG.live_iff.mpr hlive) hk)
  · intro hm
    exact hG.live_of_mem_ids hr' (hG.live_iff.mpr hlive) hm

/-- A copy of a tree with leaf atoms has leaf atoms. -/
theorem leafAtoms (h : copy.CopyOf label r) (hleaf : LeafRose (r.map label)) :
    copy.LeafAtoms := by
  obtain ⟨G, r', hG, hlive, hr', hroot, hmap⟩ := h.shape
  rw [hG.leafAtoms_iff]
  intro id value hid
  refine children_of_leafRose hr' (hmap ▸ hleaf) id ?_ value hid
  have hbelow : copy.AncestorOrSelf copy.root id :=
    h.live_iff.mp (hG.live_iff.mpr (by rw [hid]; rfl))
  rwa [hG.ancestorOrSelf_iff, ← hroot, ← OrderedForest.mem_ids_iff_mem_subtree hr'] at hbelow

/-- A copy of a tree with leaf atoms shows the form of the original. -/
theorem shows (h : copy.CopyOf label r) (hleaf : LeafRose (r.map label)) :
    copy.Shows copy.root (formOf label r) := by
  obtain ⟨G, r', hG, hlive, hr', hroot, hmap⟩ := h.shape
  rw [← formOf_eq_of_map _ _ hmap, ← hroot]
  exact hG.shows hr' hlive (hmap ▸ hleaf)

end Tree.CopyOf

/-- The atoms of `mixedTree` are leaves. -/
theorem mixedTree_leafAtoms : mixedTree.LeafAtoms := by
  intro id node hnode hatom
  have hslot := Slab.mem_slots hnode
  simp only [mixedTree, List.mem_cons, List.not_mem_nil, or_false, Option.some.injEq] at hslot
  rcases hslot with rfl | rfl | rfl | rfl | rfl | rfl | rfl
  · cases hatom
  · cases hatom
  · exact ⟨rfl, rfl, rfl⟩
  · cases hatom
  · exact ⟨rfl, rfl, rfl⟩
  · exact ⟨rfl, rfl, rfl⟩
  · cases hatom

end Sexp
