import Sexp.Core.Allocation
import Sexp.Core.Children
import Sexp.Core.Clone
import Sexp.Core.Denotation
import Sexp.Core.Numbering
import Sexp.Core.Removal
import Sexp.Library.Growth

/-! # Cloning copies a subtree

The worklist of `clone_into` makes the forest of the destination grow by a copy of a subtree of the
source: a rose tree with other ids and the same contents. Each pass allocates a node and appends it
(`copyNode`), and the frames that a node leaves on the worklist copy its children below the copy of
the node, in order (`clonePass_clears`). `clone_subtree` of a node other than the root is therefore
a well-formed tree whose root denotes the same form as the node. -/

namespace Sexp

open Library (OrderedForest Rose Spans Grows Walk Answers LoopAnswers Clears Filled InOrder)

variable {source : Tree} {F : OrderedForest NodeId NodeType} {n : NodeId}

/-! ## Forms depend on the shape only -/

section Shape

variable {label label' : NodeId → Option NodeType}

mutual

/-- Rose trees of the same shape have the same form. -/
theorem formOf_eq_of_map (r r' : Rose NodeId) (h : r'.map label' = r.map label) :
    formOf label' r' = formOf label r := by
  match r, r' with
  | .node n ks, .node n' ks' =>
      simp only [Rose.map_node, Rose.node.injEq] at h
      rw [formOf, formOf, h.1, formsOf_eq_of_mapAll ks ks' h.2]

/-- Lists of rose trees of the same shape have the same forms. -/
theorem formsOf_eq_of_mapAll (ks ks' : List (Rose NodeId))
    (h : Rose.mapAll label' ks' = Rose.mapAll label ks) :
    formsOf label' ks' = formsOf label ks := by
  match ks, ks' with
  | [], [] => simp
  | k :: ks, k' :: ks' =>
      simp only [Rose.mapAll_cons, List.cons.injEq] at h
      rw [formsOf_cons, formsOf_cons, formOf_eq_of_map k k' h.1, formsOf_eq_of_mapAll ks ks' h.2]
  | [], _ :: _ => simp at h
  | _ :: _, [] => simp at h

end

end Shape

/-! ## Destinations -/

/-- **A destination of a copy**: a tree without free slots that stores a forest. -/
structure Tree.Destination (tree : Tree) (G : OrderedForest NodeId NodeType) : Prop where
  /-- The nodes store the forest. -/
  represents : tree.Represents G
  /-- The slab is consistent. -/
  slab : tree.nodes.WellFormed
  /-- No slot is free. -/
  free_eq : tree.nodes.free = []

/-- The live nodes of a destination are those of the slots. -/
theorem Tree.Destination.filled {tree : Tree} {G : OrderedForest NodeId NodeType}
    (h : tree.Destination G) : Filled G Key.slot tree.nodes.slots.length :=
  h.represents.filled h.slab h.free_eq

/-- **What copying does to the destination**: its forest grows, at the end of the children of `p`,
by trees of the same shape as the ones that are copied. -/
structure Tree.Copies (tree tree' : Tree) (G H : OrderedForest NodeId NodeType) (p : NodeId)
    (label : NodeId → Option NodeType) (rs rs' : List (Rose NodeId)) : Prop where
  /-- The result is a destination again. -/
  destination : tree'.Destination H
  /-- The forest grows by the copies. -/
  grows : Grows G H (some p) rs'
  /-- The copies have the shape of the originals. -/
  shape : Rose.mapAll H.label rs' = Rose.mapAll label rs
  /-- Apart from the nodes, only the version changes. -/
  frame : tree' = { tree with nodes := tree'.nodes, version := tree'.version }
  /-- One slot is taken by every node. -/
  length_eq : tree'.nodes.slots.length = tree.nodes.slots.length + (Rose.idsAll rs).length

namespace Tree.Copies

variable {tree tree' tree'' : Tree} {G H K : OrderedForest NodeId NodeType} {p : NodeId}
  {label : NodeId → Option NodeType} {rs rs' ss ss' ks ks' : List (Rose NodeId)}

/-- Copying nothing. -/
theorem nil (h : tree.Destination G) (hp : (G.label p).isSome) :
    tree.Copies tree G G p label [] [] where
  destination := h
  grows := .nil fun q hq => Option.some.inj hq ▸ hp
  shape := by simp
  frame := rfl
  length_eq := by simp

/-- Copying one list of trees behind another. -/
theorem append (h : tree.Copies tree' G H p label rs rs')
    (h' : tree'.Copies tree'' H K p label ss ss') :
    tree.Copies tree'' G K p label (rs ++ ss) (rs' ++ ss') where
  destination := h'.destination
  grows := h.grows.append h'.grows
  shape := by
    -- the second growth keeps the contents of the nodes that the first one has made
    have hkeep : Rose.mapAll K.label rs' = Rose.mapAll H.label rs' :=
      Rose.mapAll_congr rs' fun x hx =>
        h'.grows.label_eq x (h'.grows.notMem_of_live (h.grows.live_new x hx))
    rw [Rose.mapAll_append, Rose.mapAll_append, hkeep, h.shape, h'.shape]
  frame := by rw [h'.frame, h.frame]
  length_eq := by
    rw [h'.length_eq, h.length_eq, Rose.idsAll_append, List.length_append, Nat.add_assoc]

/-- Copying a node and then its children below the copy. -/
theorem node {id : NodeId} (h : tree.Copies tree' G H p label [.node n []] [.node id []])
    (h' : tree'.Copies tree'' H K id label ks ks') :
    tree.Copies tree'' G K p label [.node n ks] [.node id ks'] where
  destination := h'.destination
  grows := h.grows.node h'.grows
  shape := by
    have hid : K.label id = H.label id := h'.grows.label_eq id (h'.grows.at_notMem rfl)
    have hroot : H.label id = label n := by simpa using h.shape
    simp [hid, hroot, h'.shape]
  frame := by rw [h'.frame, h.frame]
  length_eq := by
    rw [h'.length_eq, h.length_eq]
    simp only [Rose.idsAll_cons, Rose.ids_node, Rose.idsAll_nil, List.append_nil, List.length_cons,
      List.length_nil]
    omega

end Tree.Copies

/-! ## One node -/

/-- Allocating a copy of a content in a consistent slab. -/
theorem allocCopy_total {tree : Tree} (h : tree.nodes.WellFormed) (kind : NodeType) :
    ∃ tree' id, allocCopy tree kind = .ok (tree', id) ∧ tree.Allocated tree' id kind := by
  rcases kind with value | _
  · obtain ⟨tree', id, halloc⟩ := allocAtom_total h value
    exact ⟨tree', id, halloc, allocAtom_ok halloc⟩
  · obtain ⟨tree', id, halloc⟩ := allocList_total h
    exact ⟨tree', id, halloc, allocList_ok halloc⟩

/-- **Copying one node**: it is allocated and appended below `p`. -/
theorem copyNode {tree : Tree} {G : OrderedForest NodeId NodeType} {p : NodeId}
    (h : tree.Destination G) (hp : (G.label p).isSome) {label : NodeId → Option NodeType}
    {kind : NodeType} (hkind : label n = some kind)
    (hfits : tree.nodes.slots.length + 1 ≤ 2 ^ 32) :
    ∃ tree₁ id tree₂ H, allocCopy tree kind = .ok (tree₁, id) ∧
      Answers (fun fuel => append fuel tree₁ p id) tree₂ ∧
      tree.Copies tree₂ G H p label [.node n []] [.node id []] := by
  obtain ⟨tree₁, id, halloc, hallocated⟩ := allocCopy_total h.slab kind
  obtain ⟨hfree, hlength⟩ := Slab.insert_of_free_eq_nil h.free_eq hallocated.insert_eq
  obtain ⟨hdead, h₁⟩ := hallocated.represents h.represents h.slab (by omega)
  have hpid : p ≠ id := by
    rintro rfl
    simp [hdead] at hp
  -- in the forest with the new node, `p` is live and not below the node
  have hlabel₁ : (G.setLabel id kind).label id = some kind := if_pos rfl
  have hp₁ : ((G.setLabel id kind).label p).isSome := by
    have : (G.setLabel id kind).label p = G.label p := if_neg hpid
    rwa [this]
  have hid₁ : ((G.setLabel id kind).label id).isSome := by rw [hlabel₁]; rfl
  have hleaf : G.children id = [] := OrderedForest.children_eq_nil_of_dead hdead
  have hbelow : p ∉ (G.setLabel id kind).subtree id := fun hmem =>
    hpid (OrderedForest.eq_of_mem_subtree_leaf hleaf hmem)
  obtain ⟨tree₂, happend, h₂⟩ := append_represents h₁ hp₁ hid₁ hbelow
  obtain ⟨fuel, hfuel⟩ := happend.exists_fuel
  obtain ⟨hframe, g, hg, -⟩ := append_relinked hfuel
  have hnotMem : ∀ q, id ∉ G.children q := fun q hmem => by
    have := G.live_child (G.mem_children.mp hmem)
    simp [hdead] at this
  have herase : ∀ q, ((G.setLabel id kind).children q).erase id = G.children q := fun q =>
    List.erase_of_not_mem (hnotMem q)
  have hgrows : Grows G ((G.setLabel id kind).move p id _ [] hp₁ hid₁ hbelow
      (List.append_nil _).symm) (some p) [.node id []] := by
    refine .single (fun q hq => Option.some.inj hq ▸ hp) hdead (fun m => rfl)
      (fun m => OrderedForest.parent_move) fun m => ?_
    rw [OrderedForest.children_move, herase, herase]
    by_cases hm : m = p
    · rw [if_pos hm, hm, if_pos rfl]
    · rw [if_neg hm, if_neg fun heq => hm (Option.some.inj heq).symm]
  refine ⟨tree₁, id, tree₂, _, halloc, happend,
    ⟨⟨h₂, hg.wellFormed (hallocated.slab h.slab), hg.free_eq.trans hfree⟩, hgrows, ?_, ?_, ?_⟩⟩
  · simp only [Rose.mapAll_cons, Rose.map_node, Rose.mapAll_nil, OrderedForest.label_move, hlabel₁,
      hkind]
  · rw [hframe, hallocated.frame]
  · rw [hg.length_eq, hlength]
    simp

/-! ## The worklist -/

/-- Copying siblings one after the other. -/
theorem clonePass_clears_all {ks : List (Rose NodeId)}
    (hks : ∀ k ∈ ks, ∀ (tree : Tree) (G : OrderedForest NodeId NodeType) (p : NodeId),
      tree.Destination G → (G.label p).isSome →
      tree.nodes.slots.length + k.ids.length ≤ 2 ^ 32 →
      ∃ tree' H r', Clears .outOfFuel (clonePass source) tree [(k.root, p)] tree' ∧
        tree.Copies tree' G H p F.label [k] [r'] ∧ InOrder Key.slot (Rose.idsAll [r']))
    (tree : Tree) (G : OrderedForest NodeId NodeType) (p : NodeId) (h : tree.Destination G)
    (hp : (G.label p).isSome)
    (hfits : tree.nodes.slots.length + (Rose.idsAll ks).length ≤ 2 ^ 32) :
    ∃ tree' H rs', Clears .outOfFuel (clonePass source) tree (ks.map fun k => (k.root, p)) tree' ∧
      tree.Copies tree' G H p F.label ks rs' ∧ InOrder Key.slot (Rose.idsAll rs') := by
  -- induction on the siblings; the copies of the first one make the destination of the others
  induction ks generalizing tree G with
  | nil => exact ⟨tree, G, [], .nil _, .nil h hp, by simp⟩
  | cons k ks ih =>
      rw [Rose.idsAll_cons, List.length_append] at hfits
      obtain ⟨tree₁, H, r', hclears, hcopies, horder⟩ :=
        hks k List.mem_cons_self tree G p h hp (by omega)
      have hlength := hcopies.length_eq
      rw [Rose.idsAll_cons, Rose.idsAll_nil, List.append_nil] at hlength
      obtain ⟨tree₂, K, rs', hclears', hcopies', horder'⟩ :=
        ih (fun q hq => hks q (List.mem_cons_of_mem k hq)) tree₁ H hcopies.destination
          (hcopies.grows.live hp) (by omega)
      exact ⟨tree₂, K, [r'] ++ rs', hclears.append hclears', hcopies.append hcopies',
        hcopies.grows.inOrder_append hcopies'.grows hcopies.destination.filled horder horder'⟩

/-- **The worklist copies a subtree.** Taking the frame of a node off the worklist copies the node
and everything below it; the copies take their slots in pre-order. -/
theorem clonePass_clears (hF : source.Represents F) {r : Rose NodeId} (hr : Spans F.children r)
    (hroot : source.Live r.root) (tree : Tree) (G : OrderedForest NodeId NodeType) (p : NodeId)
    (h : tree.Destination G) (hp : (G.label p).isSome)
    (hfits : tree.nodes.slots.length + r.ids.length ≤ 2 ^ 32) :
    ∃ tree' H r', Clears .outOfFuel (clonePass source) tree [(r.root, p)] tree' ∧
      tree.Copies tree' G H p F.label [r] [r'] ∧ InOrder Key.slot (Rose.idsAll [r']) := by
  induction hr generalizing tree G p with
  | @node n ks hkids hspans ih =>
      rw [Rose.ids_node, List.length_cons] at hfits
      rw [Rose.root_node] at hroot ⊢
      have hlive : ∀ k ∈ ks, source.Live k.root := hF.live_kids hkids
      obtain ⟨kind, hkind⟩ := Option.isSome_iff_exists.mp (hF.live_iff.mp hroot)
      have hm : source.nodes.get n = some (nodeOf F n kind) := hF.get_of_label hkind
      obtain ⟨tree₁, id, tree₂, H, halloc, happend, hcopies⟩ := copyNode h hp hkind (by omega)
      have hlength := hcopies.length_eq
      simp only [Rose.idsAll_cons, Rose.ids_node, Rose.idsAll_nil, List.append_nil,
        List.length_cons, List.length_nil] at hlength
      obtain ⟨tree₃, K, ks', hclears, hcopies', horder⟩ :=
        clonePass_clears_all (fun k hk => ih k hk (hlive k hk)) tree₂ H id hcopies.destination
          (hcopies.grows.live_new id (by simp)) (by omega)
      refine ⟨tree₃, K, .node id ks', .push (fun stack => ?_) hclears, hcopies.node hcopies',
        hcopies.grows.inOrder_node hcopies'.grows hcopies.destination.filled horder⟩
      -- the pass that copies the node and pushes its children
      have hpush := pushChildren_children (fun child _ => (child, id)) (F.children n)
        (F.children n).getLast? stack (hF.isChildList hm).backward
        fun c hc => hF.live_iff.mpr (F.live_child (F.mem_children.mp hc))
      rw [hkids, List.map_map] at hpush
      have hget : source.get n = .ok (nodeOf F n kind) := Slab.index_eq_ok.mpr hm
      have hlast : source.lastChild n = .ok (F.children n).getLast? := by
        rw [Tree.lastChild, hget]
        rfl
      refine .bind (.const fun _ => hget) (.bind (.const fun _ => halloc) ?_)
      refine .bind happend (.bind (.const fun _ => hlast) ?_)
      rw [hkids]
      exact .bind hpush (.const fun _ => rfl)

/-! ## The whole copy -/

/-- **`clone_into` copies a subtree** below a node of the destination. -/
theorem cloneInto_answers (hF : source.Represents F) {r : Rose NodeId} (hr : Spans F.children r)
    (hroot : source.Live r.root) {tree : Tree} {G : OrderedForest NodeId NodeType} {p : NodeId}
    (h : tree.Destination G) (hp : (G.label p).isSome)
    (hfits : tree.nodes.slots.length + r.ids.length ≤ 2 ^ 32) :
    ∃ tree' H r', Answers (fun fuel => cloneInto fuel source r.root tree p) tree' ∧
      tree.Copies tree' G H p F.label [r] [r'] ∧ InOrder Key.slot (Rose.idsAll [r']) := by
  obtain ⟨tree', H, r', hclears, hcopies, horder⟩ :=
    clonePass_clears hF hr hroot tree G p h hp hfits
  exact ⟨tree', H, r', (hclears.loopAnswers (.const fun _ => rfl)).answers, hcopies, horder⟩

/-- The loop of `clone_subtree` copies the children of the node one after the other. -/
theorem cloneChildPass_answers (hF : source.Represents F) {ks : List (Rose NodeId)}
    (hspans : ∀ k ∈ ks, Spans F.children k) (hlive : ∀ k ∈ ks, source.Live k.root)
    (tree : Tree) (G : OrderedForest NodeId NodeType) (p : NodeId) (h : tree.Destination G)
    (hp : (G.label p).isSome)
    (hfits : tree.nodes.slots.length + (Rose.idsAll ks).length ≤ 2 ^ 32) (cursor : Option NodeId)
    (hwalk : Walk source.nextOf cursor (ks.map Rose.root)) :
    ∃ tree' H rs', LoopAnswers .outOfFuel (cloneChildPass source p) (tree, cursor) tree' ∧
      tree.Copies tree' G H p F.label ks rs' ∧ InOrder Key.slot (Rose.idsAll rs') := by
  induction ks generalizing tree G cursor with
  | nil =>
      obtain rfl : cursor = none := hwalk
      exact ⟨tree, G, [], .leave (.const fun _ => rfl), .nil h hp, by simp⟩
  | cons k ks ih =>
      obtain ⟨rfl, hrest⟩ := hwalk
      rw [Rose.idsAll_cons, List.length_append] at hfits
      have hk : source.Live k.root := hlive k List.mem_cons_self
      obtain ⟨tree₁, H, r', hinto, hcopies, horder⟩ :=
        cloneInto_answers hF (hspans k List.mem_cons_self) hk h hp (by omega)
      -- the first child takes one slot for each of its nodes, so the others still fit
      have hlength := hcopies.length_eq
      rw [Rose.idsAll_cons, Rose.idsAll_nil, List.append_nil] at hlength
      obtain ⟨tree₂, K, rs', hloop, hcopies', horder'⟩ :=
        ih (fun q hq => hspans q (List.mem_cons_of_mem k hq))
          (fun q hq => hlive q (List.mem_cons_of_mem k hq)) tree₁ H hcopies.destination
          (hcopies.grows.live hp) (by omega) (source.nextOf k.root) hrest
      refine ⟨tree₂, K, [r'] ++ rs', .again ?_ hloop, hcopies.append hcopies',
        hcopies.grows.inOrder_append hcopies'.grows hcopies.destination.filled horder horder'⟩
      refine .bind (.const fun _ => Tree.nextSibling_of_live hk) (.bind hinto ?_)
      exact .const fun _ => rfl

/-- What a copy of a tree takes along: an atom is copied without what hangs below it. -/
def copied (label : NodeId → Option NodeType) (r : Rose NodeId) : Rose NodeId :=
  match label r.root with
  | some (.atom _) => .node r.root []
  | _ => r

/-- The form of a tree is the form of what a copy takes along. -/
theorem formOf_copied (label : NodeId → Option NodeType) (r : Rose NodeId) :
    formOf label (copied label r) = formOf label r := by
  rcases r with ⟨n, ks⟩
  rw [copied, Rose.root_node]
  split
  · rename_i value hlabel
    rw [formOf_atom hlabel, formOf_atom hlabel]
  · rfl

/-- **A copy**: a well-formed tree with a parentless root and no free slot, which has the shape of
the tree that is copied. -/
structure Tree.CopyOf (copy : Tree) (label : NodeId → Option NodeType) (r : Rose NodeId) :
    Prop where
  /-- The links are consistent. -/
  wellFormed : copy.WellFormed
  /-- The root has no parent. -/
  root_parentless : copy.parentOf copy.root = none
  /-- No slot is free. -/
  free_eq : copy.nodes.free = []
  /-- One node for each node of the original. -/
  len_eq : copy.len = r.ids.length
  /-- The copy has the shape of the original. -/
  shape : ∃ G r', copy.Represents G ∧ (G.label r'.root).isSome ∧ Spans G.children r' ∧
    r'.root = copy.root ∧ r'.map G.label = r.map label
  /-- The copy is not the implicit tree of an empty text. -/
  bare_eq : copy.bare = false
  /-- Nothing is cached. -/
  reprCache_eq : copy.reprCache = none

/-- A copy denotes the form of the original. -/
theorem Tree.CopyOf.denotes {copy : Tree} {label : NodeId → Option NodeType} {r : Rose NodeId}
    (h : copy.CopyOf label (copied label r)) : copy.Denotes copy.root (formOf label r) := by
  obtain ⟨G, r', hG, hlive, hr', hroot, hmap⟩ := h.shape
  refine ⟨G, r', hG, hroot ▸ hlive, hr', hroot, ?_⟩
  rw [formOf_eq_of_map _ _ hmap, formOf_copied]

/-- The live node of a forest with one node. -/
theorem isSome_label_single (kind : NodeType) (m : NodeId) :
    ((OrderedForest.empty.setLabel ⟨0⟩ kind : OrderedForest NodeId NodeType).label m).isSome ↔
      m = ⟨0⟩ := by
  by_cases hm : m = ⟨0⟩ <;> simp [OrderedForest.setLabel, OrderedForest.empty, hm]

/-- A tree with one node is numbered in pre-order. -/
theorem numbered_single (kind : NodeType) :
    (Tree.fromRaw ⟨[some (Node.unlinked kind)], []⟩ ⟨0⟩).Numbered (.node (some kind) []) := by
  have hlabel : (OrderedForest.empty.setLabel ⟨0⟩ kind : OrderedForest NodeId NodeType).label
      ⟨0⟩ = some kind := by simp [OrderedForest.setLabel]
  have hspans : Spans (OrderedForest.empty.setLabel ⟨0⟩ kind :
      OrderedForest NodeId NodeType).children (.node ⟨0⟩ []) := .node rfl (by simp)
  have hnumbered := Tree.Represents.numbered (represents_single kind) (wellFormed_single kind).slab
    rfl (by simp [Tree.fromRaw]) hspans rfl (fun m => by rw [isSome_label_single]; simp) (by simp)
  rwa [Rose.map_node, hlabel] at hnumbered

/-- A copy of an atom. -/
theorem copyOf_single {label : NodeId → Option NodeType} {kind : NodeType}
    (h : label n = some kind) :
    (Tree.fromRaw ⟨[some (Node.unlinked kind)], []⟩ ⟨0⟩).CopyOf label (.node n []) where
  wellFormed := wellFormed_single kind
  root_parentless := (represents_single kind).parentOf_eq _
  free_eq := rfl
  len_eq := rfl
  shape := by
    have hlabel : (OrderedForest.empty.setLabel ⟨0⟩ kind : OrderedForest NodeId NodeType).label
        ⟨0⟩ = some kind := by simp [OrderedForest.setLabel]
    refine ⟨_, .node ⟨0⟩ [], represents_single kind, by rw [Rose.root_node, hlabel]; rfl,
      .node rfl (by simp), rfl, ?_⟩
    rw [Rose.map_node, Rose.map_node, hlabel, h]
    simp
  bare_eq := rfl
  reprCache_eq := rfl

/-- A new tree with the copies of the children of a list below its root is a copy of the list. -/
theorem Tree.Copies.copyOf {label : NodeId → Option NodeType} {copy : Tree}
    {H : OrderedForest NodeId NodeType} {ks ks' : List (Rose NodeId)}
    (hlist : label n = some .list)
    (h : (Tree.fromRaw ⟨[some (Node.unlinked .list)], []⟩ ⟨0⟩).Copies copy
      (OrderedForest.empty.setLabel ⟨0⟩ .list) H ⟨0⟩ label ks ks') :
    copy.CopyOf label (.node n ks) := by
  have hroot : copy.root = ⟨0⟩ := by rw [h.frame]; rfl
  -- the root is not among the new nodes, so it keeps its content
  have hnotMem : (⟨0⟩ : NodeId) ∉ Rose.idsAll ks' := h.grows.at_notMem rfl
  have hlabel : H.label ⟨0⟩ = some .list := by
    rw [h.grows.label_eq _ hnotMem]
    simp [OrderedForest.setLabel]
  have hlive : (H.label ⟨0⟩).isSome := by rw [hlabel]; rfl
  have hchildren : H.children ⟨0⟩ = ks'.map Rose.root := h.grows.children_at _ rfl
  refine
    { wellFormed := ⟨h.destination.represents.consistent h.destination.slab, ?_⟩
      root_parentless := ?_
      free_eq := h.destination.free_eq
      len_eq := ?_
      shape := ⟨H, .node ⟨0⟩ ks', h.destination.represents, hlive, .node hchildren h.grows.spans,
        hroot.symm, ?_⟩
      bare_eq := by rw [h.frame]; rfl
      reprCache_eq := by rw [h.frame]; rfl }
  · rw [hroot]
    exact h.destination.represents.live_iff.mpr hlive
  · rw [hroot, h.destination.represents.parentOf_eq]
    exact h.grows.parent_eq _ hnotMem
  · have hlength := h.length_eq
    change copy.nodes.slots.length - copy.nodes.free.length = _
    rw [h.destination.free_eq, hlength]
    simp only [Tree.fromRaw, List.length_cons, List.length_nil, Rose.ids_node]
    omega
  · rw [Rose.map_node, Rose.map_node, hlabel, hlist, h.shape]

/-- The copies below the root of a new tree are numbered in pre-order. -/
theorem Tree.Copies.numbered {label : NodeId → Option NodeType} {copy : Tree}
    {H : OrderedForest NodeId NodeType} {ks ks' : List (Rose NodeId)}
    (hlist : label n = some .list)
    (h : (Tree.fromRaw ⟨[some (Node.unlinked .list)], []⟩ ⟨0⟩).Copies copy
      (OrderedForest.empty.setLabel ⟨0⟩ .list) H ⟨0⟩ label ks ks')
    (horder : InOrder Key.slot (Rose.idsAll ks'))
    (hfits : (Rose.idsAll ks).length + 1 ≤ 2 ^ 32) :
    copy.Numbered ((Rose.node n ks).map label) := by
  have hnotMem : (⟨0⟩ : NodeId) ∉ Rose.idsAll ks' := h.grows.at_notMem rfl
  have hlabel : H.label ⟨0⟩ = some .list := by
    rw [h.grows.label_eq _ hnotMem]
    simp [OrderedForest.setLabel]
  have hlive : ∀ m, (H.label m).isSome ↔ m ∈ (Rose.node ⟨0⟩ ks').ids := by
    intro m
    rw [Rose.ids_node, List.mem_cons]
    by_cases hm : m ∈ Rose.idsAll ks'
    · exact iff_of_true (h.grows.live_new m hm) (.inr hm)
    · rw [h.grows.label_eq m hm, isSome_label_single]
      simp [hm]
  have hnew : (Tree.fromRaw ⟨[some (Node.unlinked .list)], []⟩ ⟨0⟩).Destination
      (OrderedForest.empty.setLabel ⟨0⟩ .list) :=
    ⟨represents_single .list, (wellFormed_single .list).slab, rfl⟩
  -- the root takes the first slot
  have horder' : InOrder Key.slot (Rose.node ⟨0⟩ ks').ids := by
    rw [Rose.ids_node]
    exact List.pairwise_cons.mpr
      ⟨fun m hm => hnew.filled.lt (by simp [OrderedForest.setLabel]) (h.grows.fresh m hm), horder⟩
  have hroot : copy.root = ⟨0⟩ := by rw [h.frame]; rfl
  have hnumbered := h.destination.represents.numbered h.destination.slab h.destination.free_eq
    (by
      rw [h.length_eq]
      simp only [Tree.fromRaw, List.length_cons, List.length_nil]
      omega) (.node (h.grows.children_at _ rfl) h.grows.spans) hroot.symm hlive horder'
  rwa [Rose.map_node, hlabel, h.shape, ← hlist, ← Rose.map_node] at hnumbered

/-- **`clone_subtree` copies a subtree**, when the node is not the root, and numbers the nodes of
the copy in pre-order. -/
theorem cloneSubtree_numbered (hF : source.Represents F) {r : Rose NodeId} (hr : Spans F.children r)
    (hlive : source.Live r.root) (hne : r.root ≠ source.root) :
    ∃ copy, Answers (fun fuel => cloneSubtree fuel source r.root) copy ∧
      copy.CopyOf F.label (copied F.label r) ∧ copy.Numbered ((copied F.label r).map F.label) := by
  obtain ⟨n, ks⟩ := r
  rw [Rose.root_node] at hlive hne
  obtain ⟨kind, hkind⟩ := Option.isSome_iff_exists.mp (hF.live_iff.mp hlive)
  have hm : source.nodes.get n = some (nodeOf F n kind) := hF.get_of_label hkind
  have hget : source.get n = .ok (nodeOf F n kind) := Slab.index_eq_ok.mpr hm
  rcases kind with value | _
  · -- an atom
    refine ⟨Tree.fromRaw ⟨[some (Node.newAtom value)], []⟩ ⟨0⟩, .const fun fuel => ?_, ?_⟩
    · simp only [Rose.root_node, cloneSubtree, if_neg hne, hget, Library.ok_bind]
      rfl
    · rw [copied, Rose.root_node, hkind]
      refine ⟨copyOf_single hkind, ?_⟩
      rw [Rose.map_node, hkind]
      exact numbered_single (.atom value)
  · -- a list
    have hnew : (Tree.fromRaw ⟨[some (Node.unlinked .list)], []⟩ ⟨0⟩).Destination
        (OrderedForest.empty.setLabel ⟨0⟩ .list) :=
      ⟨represents_single .list, (wellFormed_single .list).slab, rfl⟩
    -- distinct keys: there are at most `2 ^ 32` nodes to copy
    have hfits : (n :: Rose.idsAll ks).length ≤ 2 ^ 32 := by
      have := F.nodup_ids hr
      rw [Rose.ids_node] at this
      exact Key.length_le_of_nodup this fun key _ => key.index.toNat_lt
    rw [List.length_cons] at hfits
    have hkids : F.children n = ks.map Rose.root := hr.children_root
    obtain ⟨copy, H, ks', hloop, hcopies, horder⟩ := cloneChildPass_answers hF hr.kids
      (hF.live_kids hkids)
      _ _ ⟨0⟩ hnew (by simp [OrderedForest.setLabel])
      (by
        simp only [Tree.fromRaw, List.length_cons, List.length_nil, Rose.kids_node]
        omega) (F.children n).head? (hkids ▸ (hF.isChildList hm).forward)
    refine ⟨copy, ?_, ?_⟩
    · have hfirst : source.firstChild n = .ok (F.children n).head? := by
        rw [Tree.firstChild, hget]
        rfl
      obtain ⟨bound, hbound⟩ := hloop.answers
      refine ⟨bound, fun fuel hle => ?_⟩
      simp only [Rose.root_node, cloneSubtree, if_neg hne, hget, Library.ok_bind, hfirst]
      exact hbound fuel hle
    · rw [copied, Rose.root_node, hkind]
      exact ⟨hcopies.copyOf hkind, hcopies.numbered hkind horder hfits⟩

/-- `clone_subtree` of a node other than the root returns a copy. -/
theorem cloneSubtree_answers (hF : source.Represents F) {r : Rose NodeId} (hr : Spans F.children r)
    (hlive : source.Live r.root) (hne : r.root ≠ source.root) :
    ∃ copy, Answers (fun fuel => cloneSubtree fuel source r.root) copy ∧
      copy.CopyOf F.label (copied F.label r) := by
  obtain ⟨copy, hanswers, hcopy, -⟩ := cloneSubtree_numbered hF hr hlive hne
  exact ⟨copy, hanswers, hcopy⟩

end Sexp
