import Sexp.Core.Relink
import Sexp.Library.LinkedList
import Sexp.Library.OrderedForest

/-! # Well-formed trees

A tree is *consistent* when its links describe an ordered forest: every link names a live node,
walking the children of a node forwards and backwards meets the same list of as many nodes as its
child count says, exactly these nodes have it as parent, a parentless node has no siblings, and
parent chains are acyclic. It is *well-formed* when moreover its root is live.

`Tree.Represents` relates a tree to the ordered forest it stores: the forest determines every link
of every node (`nodeOf`). A tree is consistent iff it represents a forest (`consistent_iff`), and
then only one (`Represents.unique`). -/

namespace Sexp

open Library (OrderedForest Rose Walk nextIn prevIn)

/-- Distinct keys of slots below `n` are at most `n`. -/
theorem Key.length_le_of_nodup {l : List Key} (hnodup : l.Nodup) {n : Nat}
    (hlt : ∀ key ∈ l, key.slot < n) : l.length ≤ n := by
  have hslots : (l.map Key.slot).Nodup := hnodup.map fun a b h => Key.slot_inj.mp h
  have hsub : l.map Key.slot ⊆ List.range n := by
    intro i hi
    obtain ⟨key, hkey, rfl⟩ := List.mem_map.mp hi
    exact List.mem_range.mpr (hlt key hkey)
  simpa using (hslots.subperm hsub).length_le

/-- As many different keys as there are slots are all the keys that point to slots. -/
theorem Key.mem_of_nodup {l : List Key} (hnodup : l.Nodup) {n : Nat}
    (hlt : ∀ key ∈ l, key.slot < n) (hlength : n ≤ l.length) {key : Key} (hkey : key.slot < n) :
    key ∈ l := by
  by_contra hnotMem
  have hle : (key :: l).length ≤ n := by
    refine Key.length_le_of_nodup (List.nodup_cons.mpr ⟨hnotMem, hnodup⟩) fun k hk => ?_
    rcases List.mem_cons.mp hk with rfl | hk
    · exact hkey
    · exact hlt k hk
  rw [List.length_cons] at hle
  omega

/-- A live key points to one of the slots. -/
theorem Slab.slot_lt_of_live {α : Type} {slab : Slab α} {key : Key}
    (h : (slab.get key).isSome) : key.slot < slab.slots.length := by
  by_contra hge
  simp [Slab.get, List.getElem?_eq_none (Nat.le_of_not_lt hge)] at h

/-- The nodes that a node links to. -/
def Node.links (n : Node) : List NodeId :=
  n.parent.toList ++ n.firstChild.toList ++ n.lastChild.toList ++ n.previousSibling.toList ++
    n.nextSibling.toList

namespace Tree

/-- Whether an id names a live node. -/
def Live (tree : Tree) (id : NodeId) : Prop := (tree.nodes.get id).isSome

/-- The parent of a node, `none` also for an id that is not live. -/
def parentOf (tree : Tree) (id : NodeId) : Option NodeId :=
  (tree.nodes.get id).bind Node.parent

/-- The next sibling of a node, `none` also for an id that is not live. -/
def nextOf (tree : Tree) (id : NodeId) : Option NodeId :=
  (tree.nodes.get id).bind Node.nextSibling

/-- The previous sibling of a node, `none` also for an id that is not live. -/
def prevOf (tree : Tree) (id : NodeId) : Option NodeId :=
  (tree.nodes.get id).bind Node.previousSibling

/-- The parent relation, from parent to child. -/
def Edge (tree : Tree) (p c : NodeId) : Prop := tree.parentOf c = some p

/-- Whether `a` is `b` or an ancestor of `b`. -/
def AncestorOrSelf (tree : Tree) (a b : NodeId) : Prop := Relation.ReflTransGen tree.Edge a b

/-- A node without a parent is below no other node. -/
theorem not_ancestorOrSelf {tree : Tree} {a b : NodeId} (hne : a ≠ b)
    (hparent : tree.parentOf b = none) : ¬ tree.AncestorOrSelf a b := by
  intro h
  rcases Relation.ReflTransGen.cases_tail h with heq | ⟨c, -, hedge⟩
  · exact hne heq.symm
  · rw [Edge, hparent] at hedge
    cases hedge

/-- **The children of a node**: the list met by walking forwards from its first child and, in
reverse, backwards from its last child; it has as many elements as the child count says, and holds
exactly the nodes whose parent is the node. -/
structure IsChildList (tree : Tree) (p : NodeId) (n : Node) (l : List NodeId) : Prop where
  /-- No child is met twice. -/
  nodup : l.Nodup
  /-- The forward walk. -/
  forward : Walk tree.nextOf n.firstChild l
  /-- The backward walk. -/
  backward : Walk tree.prevOf n.lastChild l.reverse
  /-- The number of children. -/
  length_eq : l.length = n.childCount.toNat
  /-- The children are the nodes with this parent. -/
  mem_iff : ∀ c, c ∈ l ↔ tree.parentOf c = some p

/-- The children of a node are live. -/
theorem IsChildList.live {tree : Tree} {p : NodeId} {n : Node} {l : List NodeId}
    (hl : tree.IsChildList p n l) : ∀ c ∈ l, tree.Live c := by
  intro c hc
  obtain ⟨m, hm, -⟩ := Option.bind_eq_some_iff.mp ((hl.mem_iff c).mp hc)
  rw [Tree.Live, hm]
  rfl

/-- There are fewer children than a machine integer can count. -/
theorem IsChildList.length_lt {tree : Tree} {p : NodeId} {n : Node} {l : List NodeId}
    (hl : tree.IsChildList p n l) : l.length < 2 ^ 32 := by
  rw [hl.length_eq]
  exact n.childCount.toNat_lt

/-- **Consistency**: the links of a tree describe an ordered forest. -/
structure Consistent (tree : Tree) : Prop where
  /-- The free list holds each empty slot exactly once. -/
  slab : tree.nodes.WellFormed
  /-- Every link of a live node names a live node. -/
  links_live : ∀ id n, tree.nodes.get id = some n → ∀ link ∈ n.links, tree.Live link
  /-- Every live node has a list of children. -/
  children : ∀ p n, tree.nodes.get p = some n → ∃ l, tree.IsChildList p n l
  /-- A parentless node has no siblings. -/
  orphan : ∀ id n, tree.nodes.get id = some n → n.parent = none →
    n.previousSibling = none ∧ n.nextSibling = none
  /-- Parent chains are acyclic. -/
  acyclic : ∀ id, ¬ Relation.TransGen tree.Edge id id

/-- A node without a first child has nothing below it. -/
theorem Consistent.eq_of_childless {tree : Tree} (hcons : tree.Consistent) {n m : NodeId}
    {node : Node} (hn : tree.nodes.get n = some node) (hfirst : node.firstChild = none)
    (hbelow : tree.AncestorOrSelf n m) : m = n := by
  rcases Relation.ReflTransGen.cases_head hbelow with heq | ⟨c, hedge, -⟩
  · exact heq.symm
  · obtain ⟨l, hl⟩ := hcons.children n node hn
    have hmem := (hl.mem_iff c).mpr hedge
    have hforward := hl.forward
    rw [hfirst] at hforward
    cases l with
    | nil => cases hmem
    | cons d l => cases hforward.1

/-- **Well-formedness**: a consistent tree whose root is live. -/
structure WellFormed (tree : Tree) : Prop extends Consistent tree where
  /-- The root names a live node. -/
  root_live : tree.Live tree.root

end Tree

/-! ## Trees represent forests -/

/-- **The node that stores a position of a forest**: every link is determined by the parents and
the child lists of the forest. -/
def nodeOf (F : OrderedForest NodeId NodeType) (id : NodeId) (kind : NodeType) : Node where
  kind := kind
  parent := F.parent id
  firstChild := (F.children id).head?
  lastChild := (F.children id).getLast?
  previousSibling := (F.parent id).bind fun p => prevIn (F.children p) id
  nextSibling := (F.parent id).bind fun p => nextIn (F.children p) id
  childCount := UInt32.ofNat (F.children id).length

/-- **A tree represents a forest** when its live nodes are the labelled ones, and each of them
stores its position in the forest. -/
def Tree.Represents (tree : Tree) (F : OrderedForest NodeId NodeType) : Prop :=
  ∀ id, tree.nodes.get id = (F.label id).map (nodeOf F id)

namespace Tree.Represents

variable {tree : Tree} {F G : OrderedForest NodeId NodeType} {id p c : NodeId} {n : Node}

/-- The live nodes are the labelled ones. -/
theorem live_iff (h : tree.Represents F) : tree.Live id ↔ (F.label id).isSome := by
  rw [Tree.Live, h id, Option.isSome_map]

/-- A labelled node is stored with its position in the forest. -/
theorem get_of_label (h : tree.Represents F) {kind : NodeType} (hlabel : F.label id = some kind) :
    tree.nodes.get id = some (nodeOf F id kind) := by
  rw [h id, hlabel]
  rfl

/-- A live node stores its position in the forest. -/
theorem eq_nodeOf (h : tree.Represents F) (hn : tree.nodes.get id = some n) :
    F.label id = some n.kind ∧ n = nodeOf F id n.kind := by
  rw [h id, Option.map_eq_some_iff] at hn
  obtain ⟨kind, hkind, rfl⟩ := hn
  exact ⟨hkind, rfl⟩

/-- Parents are the parents of the forest. -/
theorem parentOf_eq (h : tree.Represents F) (id : NodeId) : tree.parentOf id = F.parent id := by
  rw [Tree.parentOf, h id]
  rcases hlabel : F.label id with _ | kind
  · simp [OrderedForest.parent_eq_none_of_dead hlabel]
  · simp [nodeOf]

/-- Next siblings are right neighbours in the child list of the parent. -/
theorem nextOf_eq (h : tree.Represents F) (hc : F.parent c = some p) :
    tree.nextOf c = nextIn (F.children p) c := by
  have hlive := F.live_child hc
  obtain ⟨kind, hkind⟩ := Option.isSome_iff_exists.mp hlive
  rw [Tree.nextOf, h c, hkind]
  simp [nodeOf, hc]

/-- Previous siblings are left neighbours in the child list of the parent. -/
theorem prevOf_eq (h : tree.Represents F) (hc : F.parent c = some p) :
    tree.prevOf c = prevIn (F.children p) c := by
  have hlive := F.live_child hc
  obtain ⟨kind, hkind⟩ := Option.isSome_iff_exists.mp hlive
  rw [Tree.prevOf, h c, hkind]
  simp [nodeOf, hc]

/-- The parent relations agree. -/
theorem edge_eq (h : tree.Represents F) : tree.Edge = F.Edge := by
  funext a b
  rw [Tree.Edge, h.parentOf_eq, OrderedForest.Edge]

/-- Ancestors are the nodes whose subtree one lies in. -/
theorem ancestorOrSelf_iff (h : tree.Represents F) {a b : NodeId} :
    tree.AncestorOrSelf a b ↔ b ∈ F.subtree a := by
  rw [Tree.AncestorOrSelf, h.edge_eq, OrderedForest.mem_subtree]

/-- A child list is short: its length is not changed by storing it as a `u32`. -/
theorem length_children_lt (F : OrderedForest NodeId NodeType) (p : NodeId) :
    (F.children p).length < 2 ^ 32 := by
  have hnodup : (p :: F.children p).Nodup := by
    refine List.nodup_cons.mpr ⟨fun hmem => ?_, F.nodup_children p⟩
    exact OrderedForest.parent_ne_self (F.mem_children.mp hmem) rfl
  have := Key.length_le_of_nodup hnodup fun key _ => key.index.toNat_lt
  rw [List.length_cons] at this
  omega

/-- Children are live. -/
theorem live_kids (h : tree.Represents F) {ks : List (Rose NodeId)}
    (hkids : F.children p = ks.map Rose.root) : ∀ k ∈ ks, tree.Live k.root := by
  intro k hk
  have hmem : k.root ∈ F.children p := by
    rw [hkids]
    exact List.mem_map_of_mem hk
  exact h.live_iff.mpr (F.live_child (F.mem_children.mp hmem))

/-- The children of a node are the child list of the forest. -/
theorem isChildList (h : tree.Represents F) (hn : tree.nodes.get p = some n) :
    tree.IsChildList p n (F.children p) := by
  obtain ⟨-, heq⟩ := h.eq_nodeOf hn
  have hmem : ∀ c ∈ F.children p, F.parent c = some p := fun c hc => F.mem_children.mp hc
  refine ⟨F.nodup_children p, ?_, ?_, ?_, fun c => ?_⟩
  · rw [Library.walk_iff_nextIn (F.nodup_children p), heq]
    exact ⟨rfl, fun c hc => h.nextOf_eq (hmem c hc)⟩
  · rw [Library.walk_reverse_iff_prevIn (F.nodup_children p), heq]
    exact ⟨rfl, fun c hc => h.prevOf_eq (hmem c hc)⟩
  · rw [heq]
    exact (UInt32.toNat_ofNat_of_lt' (length_children_lt F p)).symm
  · rw [h.parentOf_eq, F.mem_children]

/-- Every link of a live node names a live node. -/
theorem links_live (h : tree.Represents F) (hn : tree.nodes.get id = some n) {link : NodeId}
    (hlink : link ∈ n.links) : tree.Live link := by
  obtain ⟨-, heq⟩ := h.eq_nodeOf hn
  have hchild : ∀ {p c}, c ∈ F.children p → tree.Live c := fun hc =>
    h.live_iff.mpr (F.live_child (F.mem_children.mp hc))
  rw [heq, Node.links] at hlink
  simp only [nodeOf, List.mem_append, Option.mem_toList, Option.bind_eq_some_iff] at hlink
  rcases hlink with (((hp | hfirst) | hlast) | ⟨p, -, hprev⟩) | ⟨p, -, hnext⟩
  · exact h.live_iff.mpr (F.live_parent hp)
  · exact hchild (List.mem_of_mem_head? hfirst)
  · exact hchild (List.mem_of_getLast? hlast)
  · exact hchild (Library.mem_of_prevIn hprev)
  · exact hchild (Library.mem_of_nextIn hnext)

/-- A tree that represents a forest is consistent, if its slab is. -/
theorem consistent (h : tree.Represents F) (hslab : tree.nodes.WellFormed) : tree.Consistent where
  slab := hslab
  links_live _ _ hn _ hlink := h.links_live hn hlink
  children p n hn := ⟨F.children p, h.isChildList hn⟩
  orphan id n hn hparent := by
    obtain ⟨-, heq⟩ := h.eq_nodeOf hn
    rw [heq] at hparent ⊢
    have hnone : F.parent id = none := hparent
    simp [nodeOf, hnone]
  acyclic id := by
    rw [h.edge_eq]
    exact F.acyclic id

/-- **A tree represents at most one forest.** -/
theorem unique (h : tree.Represents F) (h' : tree.Represents G) : F = G := by
  have hlabel : F.label = G.label := by
    funext id
    have hid : (F.label id).map (nodeOf F id) = (G.label id).map (nodeOf G id) :=
      (h id).symm.trans (h' id)
    rcases hF : F.label id with _ | k <;> rcases hG : G.label id with _ | k' <;>
      simp [hF, hG] at hid ⊢
    exact congrArg Node.kind hid
  refine OrderedForest.ext hlabel (funext fun id => ?_) (funext fun p => ?_)
  · rw [← h.parentOf_eq, ← h'.parentOf_eq]
  · rcases hp : tree.nodes.get p with _ | n
    · have hF : F.label p = none := by simpa [hp] using (h p).symm
      rw [OrderedForest.children_eq_nil_of_dead hF,
        OrderedForest.children_eq_nil_of_dead (hlabel ▸ hF)]
    · exact (h.isChildList hp).forward.unique (h'.isChildList hp).forward

end Tree.Represents

namespace Tree.Consistent

variable {tree : Tree}

/-- The children of an id, empty for an id that is not live. -/
theorem exists_children (h : tree.Consistent) (p : NodeId) :
    ∃ l, (∀ n, tree.nodes.get p = some n → tree.IsChildList p n l) ∧
      (tree.nodes.get p = none → l = []) := by
  rcases hp : tree.nodes.get p with _ | n
  · exact ⟨[], by simp⟩
  · obtain ⟨l, hl⟩ := h.children p n hp
    exact ⟨l, fun m hm => by rwa [← Option.some.inj hm], by simp⟩

/-- **A consistent tree represents a forest.** -/
theorem exists_represents (h : tree.Consistent) : ∃ F, tree.Represents F := by
  choose children hchildren using h.exists_children
  have hlist : ∀ {p n}, tree.nodes.get p = some n → tree.IsChildList p n (children p) :=
    fun {p n} hn => (hchildren p).1 n hn
  have hparent_live : ∀ {p c}, tree.parentOf c = some p → tree.Live p ∧ tree.Live c := by
    intro p c hc
    obtain ⟨n, hn, hp⟩ := Option.bind_eq_some_iff.mp hc
    exact ⟨h.links_live c n hn p (by simp [Node.links, hp]), by simp [Tree.Live, hn]⟩
  have hmem : ∀ {p c}, c ∈ children p ↔ tree.parentOf c = some p := by
    intro p c
    rcases hp : tree.nodes.get p with _ | n
    · rw [(hchildren p).2 hp]
      refine iff_of_false (by simp) fun hc => ?_
      simpa [Tree.Live, hp] using (hparent_live hc).1
    · exact (hlist hp).mem_iff c
  -- contents and parents are read off the slab, the children are the lists chosen above
  let F : OrderedForest NodeId NodeType :=
    { label := fun id => (tree.nodes.get id).map Node.kind
      parent := tree.parentOf
      children := children
      nodup_children := fun p => by
        rcases hp : tree.nodes.get p with _ | n
        · rw [(hchildren p).2 hp]
          exact List.nodup_nil
        · exact (hlist hp).nodup
      mem_children := hmem
      live_parent := fun hc => by simpa [Tree.Live] using (hparent_live hc).1
      live_child := fun hc => by simpa [Tree.Live] using (hparent_live hc).2
      acyclic := h.acyclic }
  refine ⟨F, fun id => ?_⟩
  rcases hid : tree.nodes.get id with _ | n
  · simp [F, hid]
  · have hl := hlist hid
    have hkind : F.label id = some n.kind := by simp [F, hid]
    rw [hkind, Option.map_some, Option.some.injEq]
    have hfields : n.parent = tree.parentOf id := by simp [Tree.parentOf, hid]
    have hnext : n.nextSibling = tree.nextOf id := by simp [Tree.nextOf, hid]
    have hprev : n.previousSibling = tree.prevOf id := by simp [Tree.prevOf, hid]
    -- the siblings of a child are its neighbours in the list of its parent; an orphan has none
    have hsiblings : n.previousSibling = (tree.parentOf id).bind (fun p => prevIn (children p) id) ∧
        n.nextSibling = (tree.parentOf id).bind fun p => nextIn (children p) id := by
      rcases hp : tree.parentOf id with _ | p
      · exact h.orphan id n hid (hfields.trans hp)
      · obtain ⟨q, hq⟩ := Option.isSome_iff_exists.mp (hparent_live hp).1
        have hlp := hlist hq
        have hidp : id ∈ children p := hmem.mpr hp
        rw [hnext, hprev]
        exact ⟨((Library.walk_reverse_iff_prevIn hlp.nodup).mp hlp.backward).2 id hidp,
          ((Library.walk_iff_nextIn hlp.nodup).mp hlp.forward).2 id hidp⟩
    have hlast : n.lastChild = (children id).getLast? := by
      rw [hl.backward.start_eq, List.head?_reverse]
    have hcount : n.childCount = UInt32.ofNat (children id).length := by
      rw [hl.length_eq, UInt32.ofNat_toNat]
    cases n
    simp only [nodeOf, F, Node.mk.injEq]
    exact ⟨trivial, hfields, hl.forward.start_eq, hlast, hsiblings.1, hsiblings.2, hcount⟩

/-- Consistency is about the nodes only. -/
theorem of_nodes_eq {tree' : Tree} (h : tree.Consistent) (hnodes : tree'.nodes = tree.nodes) :
    tree'.Consistent := by
  obtain ⟨F, hF⟩ := h.exists_represents
  have hF' : tree'.Represents F := by
    intro id
    rw [hnodes]
    exact hF id
  exact hF'.consistent (hnodes ▸ h.slab)

end Tree.Consistent

/-- **Consistent trees are the ones that represent a forest**, in a consistent slab. -/
theorem Tree.consistent_iff {tree : Tree} :
    tree.Consistent ↔ tree.nodes.WellFormed ∧ ∃ F, tree.Represents F :=
  ⟨fun h => ⟨h.slab, h.exists_represents⟩, fun ⟨hslab, _, hF⟩ => hF.consistent hslab⟩

end Sexp
