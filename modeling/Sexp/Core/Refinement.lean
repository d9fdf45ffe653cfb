import Sexp.Core.WellFormed

/-! # Mutations refine edits of the forest

On a tree that represents a forest, the field-by-field rewritings of `Sexp.Core.Relink` are the
edits of ordered forests: detaching a node is `OrderedForest.detach`, attaching it between two
neighbours is `OrderedForest.place`. -/

namespace Sexp

open Library (OrderedForest nextIn prevIn)

namespace Tree.Represents

variable {tree tree' : Tree} {F : OrderedForest NodeId NodeType} {p c id : NodeId} {n old : Node}

/-! ## Detaching -/

/-- Neighbours of the children of a node that is not the parent of `c` do not change when `c` is
detached. -/
theorem erase_children_of_ne {q : NodeId} (hc : F.parent c = some p) (hq : q ≠ p) :
    (F.children q).erase c = F.children q := by
  rw [List.erase_of_not_mem]
  rw [F.mem_children, hc, Option.some.injEq]
  exact Ne.symm hq

/-- The position of every node after detaching an attached node. -/
theorem detachStep_nodeOf (hc : F.parent c = some p) (kc kind : NodeType) (id : NodeId) :
    Node.detachStep c (nodeOf F c kc) id (nodeOf F id kind) = nodeOf (F.detach c) id kind := by
  have hmem : c ∈ F.children p := F.mem_children.mpr hc
  have hnodup := F.nodup_children
  have hprev : (nodeOf F c kc).previousSibling = prevIn (F.children p) c := by simp [nodeOf, hc]
  have hnext : (nodeOf F c kc).nextSibling = nextIn (F.children p) c := by simp [nodeOf, hc]
  have hparent : (nodeOf F c kc).parent = some p := hc
  -- a neighbour of `c` is a child of `p`
  have hprev_child : ∀ {m}, prevIn (F.children p) c = some m → F.parent m = some p := fun hm =>
    F.mem_children.mp (Library.mem_of_prevIn hm)
  have hnext_child : ∀ {m}, nextIn (F.children p) c = some m → F.parent m = some p := fun hm =>
    F.mem_children.mp (Library.mem_of_nextIn hm)
  rw [Node.detachStep, hprev, hnext, hparent]
  simp only [nodeOf, OrderedForest.parent_detach, OrderedForest.children_detach,
    Node.mk.injEq, true_and, Option.some.injEq]
  refine ⟨?_, ?_, ?_, ?_, ?_⟩
  · -- the first child
    by_cases hid : id = p
    · subst hid
      simp [Library.head?_erase (hnodup id) hmem]
    · rw [erase_children_of_ne hc hid, if_neg (by simp [Ne.symm hid])]
  · -- the last child
    by_cases hid : id = p
    · subst hid
      simp [Library.getLast?_erase (hnodup id) hmem]
    · rw [erase_children_of_ne hc hid, if_neg (by simp [Ne.symm hid])]
  · -- the previous sibling
    by_cases hid : id = c
    · simp [hid]
    · rw [if_neg hid, if_neg hid]
      rcases hq : F.parent id with _ | q
      · rw [if_neg fun h => by simp [hnext_child h] at hq]
        rfl
      · by_cases hqp : q = p
        · subst hqp
          rw [Option.bind_some, Option.bind_some, Library.prevIn_erase (hnodup q) hid]
        · rw [Option.bind_some, Option.bind_some, erase_children_of_ne hc hqp, if_neg]
          exact fun h => hqp (by simpa [hnext_child h] using hq.symm)
  · -- the next sibling
    by_cases hid : id = c
    · simp [hid]
    · rw [if_neg hid, if_neg hid]
      rcases hq : F.parent id with _ | q
      · rw [if_neg fun h => by simp [hprev_child h] at hq]
        rfl
      · by_cases hqp : q = p
        · subst hqp
          rw [Option.bind_some, Option.bind_some, Library.nextIn_erase (hnodup q) hid]
        · rw [Option.bind_some, Option.bind_some, erase_children_of_ne hc hqp, if_neg]
          exact fun h => hqp (by simpa [hprev_child h] using hq.symm)
  · -- the child count
    by_cases hid : id = p
    · subst hid
      have hlen : (F.children id).length = ((F.children id).erase c).length + 1 := by
        have := List.length_pos_of_mem hmem
        rw [List.length_erase_of_mem hmem]
        omega
      rw [if_pos rfl, hlen, UInt32.ofNat_add]
      simp
    · rw [erase_children_of_ne hc hid, if_neg (Ne.symm hid)]

/-- Detaching a parentless node changes no position. -/
theorem detachStep_nodeOf_of_free (hc : F.parent c = none) (kc kind : NodeType) (id : NodeId) :
    Node.detachStep c (nodeOf F c kc) id (nodeOf F id kind) = nodeOf (F.detach c) id kind := by
  rw [OrderedForest.detach_eq_self hc]
  by_cases hid : id = c
  · subst hid
    simp [Node.detachStep, nodeOf, hc]
  · simp [Node.detachStep, nodeOf, hc, hid]

/-- **Detaching refines `detach`.** -/
theorem detach (h : tree.Represents F) (hold : tree.nodes.get c = some old)
    (hstep : tree.nodes.Rewrites tree'.nodes (Node.detachStep c old)) :
    tree'.Represents (F.detach c) := by
  intro id
  obtain ⟨-, heq⟩ := h.eq_nodeOf hold
  rw [hstep.get_eq, h id, heq, Option.map_map, OrderedForest.label_detach]
  refine congrFun (congrArg Option.map (funext fun kind => ?_)) _
  rcases hc : F.parent c with _ | p
  · exact detachStep_nodeOf_of_free hc _ kind id
  · exact detachStep_nodeOf hc _ kind id

/-- Detaching a node if it is attached refines `detach` as well. -/
theorem cut (h : tree.Represents F) (hold : tree.nodes.get c = some old)
    (hcut : tree.nodes.Rewrites tree'.nodes (Node.cutStep c old)) :
    tree'.Represents (F.detach c) := by
  by_cases hattached : old.parent.isSome = true
  · exact h.detach hold (hcut.congr fun id n => by rw [Node.cutStep, if_pos hattached])
  · have hfree : F.parent c = none := by
      rw [← h.parentOf_eq, Tree.parentOf, hold]
      simpa using hattached
    rw [OrderedForest.detach_eq_self hfree]
    intro id
    rw [hcut.get_eq, h id, Option.map_map]
    refine congrFun (congrArg Option.map (funext fun kind => ?_)) _
    rw [Function.comp_apply, Node.cutStep, if_neg hattached]

/-! ## Attaching -/

/-- The position of every node after placing a parentless node among the children of another. -/
theorem attachStep_nodeOf {xs ys : List NodeId} (hp : (F.label p).isSome)
    (hc : (F.label c).isSome) (hfree : F.parent c = none) (hbelow : p ∉ F.subtree c)
    (hgap : F.children p = xs ++ ys) (kind : NodeType) (id : NodeId) :
    Node.attachStep p c xs.getLast? ys.head? id (nodeOf F id kind) =
      nodeOf (F.place p c xs ys hp hc hfree hbelow hgap) id kind := by
  have hnew : c ∉ xs ++ ys := fun hmem => by
    rw [← hgap, F.mem_children, hfree] at hmem
    simp at hmem
  have hnodup : (xs ++ c :: ys).Nodup :=
    List.nodup_middle.mpr (List.nodup_cons.mpr ⟨hnew, hgap ▸ F.nodup_children p⟩)
  -- a neighbour of the gap is a child of `p`, and so not `c`
  have hxs : ∀ {m}, xs.getLast? = some m → F.parent m = some p := fun hm => by
    rw [← F.mem_children, hgap]
    exact List.mem_append_left _ (List.mem_of_getLast? hm)
  have hys : ∀ {m}, ys.head? = some m → F.parent m = some p := fun hm => by
    rw [← F.mem_children, hgap]
    exact List.mem_append_right _ (List.mem_of_mem_head? hm)
  have hxc : xs.getLast? ≠ some c := fun hm => by simpa [hfree] using hxs hm
  have hyc : ys.head? ≠ some c := fun hm => by simpa [hfree] using hys hm
  rw [Node.attachStep]
  simp only [nodeOf, OrderedForest.place, Node.mk.injEq, true_and]
  refine ⟨?_, ?_, ?_, ?_, ?_⟩
  · -- the first child
    by_cases hid : id = p
    · subst hid
      rw [if_pos rfl, hgap]
      cases xs <;> simp
    · simp [hid]
  · -- the last child
    by_cases hid : id = p
    · subst hid
      rw [if_pos rfl, hgap]
      cases ys with
      | nil => simp
      | cons y ys => simp [List.getLast?_append, List.getLast?_cons_cons]
    · simp [hid]
  · -- the previous sibling
    by_cases hid : id = c
    · subst hid
      simp [hyc, Library.prevIn_insert hnodup]
    · rw [if_neg hid, if_neg hid]
      rcases hq : F.parent id with _ | q
      · rw [if_neg fun h => by simp [hys h] at hq]
        rfl
      · by_cases hqp : q = p
        · subst hqp
          simp [Library.prevIn_insert hnodup, hid, hgap]
        · rw [Option.bind_some, Option.bind_some, if_neg hqp, if_neg]
          exact fun h => hqp (by simpa [hys h] using hq.symm)
  · -- the next sibling
    by_cases hid : id = c
    · subst hid
      simp [hxc, Library.nextIn_insert hnodup]
    · rw [if_neg hid, if_neg hid]
      rcases hq : F.parent id with _ | q
      · rw [if_neg fun h => by simp [hxs h] at hq]
        rfl
      · by_cases hqp : q = p
        · subst hqp
          simp [Library.nextIn_insert hnodup, hid, hgap]
        · rw [Option.bind_some, Option.bind_some, if_neg hqp, if_neg]
          exact fun h => hqp (by simpa [hxs h] using hq.symm)
  · -- the child count
    by_cases hid : id = p
    · subst hid
      have hlen : (xs ++ c :: ys).length = (F.children id).length + 1 := by
        rw [hgap]
        simp only [List.length_append, List.length_cons]
        omega
      rw [if_pos rfl, if_pos rfl, hlen, UInt32.ofNat_add]
      rfl
    · simp [hid]

/-- **Attaching a parentless node refines `place`.** -/
theorem place (h : tree.Represents F) {xs ys : List NodeId} (hp : (F.label p).isSome)
    (hc : (F.label c).isSome) (hfree : F.parent c = none) (hbelow : p ∉ F.subtree c)
    (hgap : F.children p = xs ++ ys)
    (hattach : tree.nodes.Rewrites tree'.nodes (Node.attachStep p c xs.getLast? ys.head?)) :
    tree'.Represents (F.place p c xs ys hp hc hfree hbelow hgap) := by
  intro id
  rw [hattach.get_eq, h id, Option.map_map]
  exact congrFun (congrArg Option.map
    (funext fun kind => attachStep_nodeOf hp hc hfree hbelow hgap kind id)) _

end Tree.Represents

end Sexp
