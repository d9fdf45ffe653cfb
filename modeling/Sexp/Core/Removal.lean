import Sexp.Core.Attach

/-! # Removing refines deleting

`remove` unlinks a node and then frees the slots of its subtree, in depth-first pre-order, with an
explicit stack fed by backward sibling walks. On a tree that represents a forest it returns for
every live node, frees exactly the subtree, and leaves a tree that represents the forest without
it. -/

namespace Sexp

open Library (OrderedForest Rose Spans Walk Answers LoopAnswers FuelMono Clears)

variable {tree tree' : Tree} {F : OrderedForest NodeId NodeType} {fuel : Nat} {n : NodeId}

/-! ## Freeing a list of slots -/

namespace Slab

variable {α : Type} {slab : Slab α}

/-- The slab after removing these keys, in order. -/
def removeAll (slab : Slab α) (ids : List Key) : Slab α :=
  ids.foldl (fun slab id => (slab.remove id).1) slab

@[simp] theorem removeAll_nil : slab.removeAll [] = slab := rfl

@[simp] theorem removeAll_cons (id : Key) (ids : List Key) :
    slab.removeAll (id :: ids) = (slab.remove id).1.removeAll ids := rfl

theorem removeAll_append (ids ids' : List Key) :
    slab.removeAll (ids ++ ids') = (slab.removeAll ids).removeAll ids' := by
  rw [removeAll, List.foldl_append]
  rfl

/-- Reading after removing a list of keys. -/
theorem get_removeAll (ids : List Key) (id : Key) :
    (slab.removeAll ids).get id = if id ∈ ids then none else slab.get id := by
  induction ids generalizing slab with
  | nil => simp
  | cons key ids ih =>
      rw [removeAll_cons, ih, get_remove]
      by_cases hid : id ∈ ids <;> by_cases hkey : id = key <;> simp [hid, hkey]

/-- Removing keys keeps the slab consistent. -/
theorem WellFormed.removeAll (h : slab.WellFormed) (ids : List Key) :
    (slab.removeAll ids).WellFormed := by
  induction ids generalizing slab with
  | nil => exact h
  | cons key ids ih => exact ih (h.remove key)

/-- Removing keys changes no number of slots. -/
@[simp] theorem length_removeAll (slab : Slab α) (ids : List Key) :
    (slab.removeAll ids).slots.length = slab.slots.length := by
  induction ids generalizing slab with
  | nil => rfl
  | cons key ids ih => rw [removeAll_cons, ih, length_remove]

/-- Removing live keys leaves so many live values less. -/
theorem WellFormed.len_removeAll (h : slab.WellFormed) {ids : List Key} (hnodup : ids.Nodup)
    (hlive : ∀ id ∈ ids, (slab.get id).isSome) :
    (slab.removeAll ids).len + ids.length = slab.len := by
  induction ids generalizing slab with
  | nil => simp
  | cons key ids ih =>
      obtain ⟨hkey, hnodup⟩ := List.nodup_cons.mp hnodup
      have hrest := ih (h.remove key) hnodup fun id hid => by
        have hne : id ≠ key := fun heq => hkey (heq ▸ hid)
        rw [get_remove, if_neg hne]
        exact hlive id (List.mem_cons_of_mem key hid)
      have hone := h.len_remove (hlive key List.mem_cons_self)
      rw [removeAll_cons, List.length_cons]
      omega

end Slab

/-! ## The backward walk over the children -/

/-- Reading the previous sibling of a live node. -/
theorem Tree.prevSibling_of_live {c : NodeId} (h : tree.Live c) :
    tree.prevSibling c = .ok (tree.prevOf c) := by
  obtain ⟨m, hm⟩ := Option.isSome_iff_exists.mp h
  rw [Tree.prevSibling, Tree.get, Slab.index_eq_ok.mpr hm, Tree.prevOf, hm]
  rfl

/-- **The frames that a backward walk pushes**: one for every child it meets, the last one met on
top. -/
theorem pushChildren_answers {α : Type} (frame : NodeId → Option NodeId → α) (l : List NodeId)
    (cursor : Option NodeId) (stack : List α) (hwalk : Walk tree.prevOf cursor l)
    (hlive : ∀ c ∈ l, tree.Live c) :
    Answers (fun fuel => pushChildren fuel tree frame cursor stack)
      ((l.map fun c => frame c (tree.prevOf c)).reverse ++ stack) := by
  refine LoopAnswers.answers ?_
  -- induction on the children that the walk still meets
  induction l generalizing cursor stack with
  | nil =>
      obtain rfl : cursor = none := hwalk
      exact .leave (.const fun _ => rfl)
  | cons c l ih =>
      obtain ⟨rfl, hrest⟩ := hwalk
      have hpass := ih (tree.prevOf c) (frame c (tree.prevOf c) :: stack) hrest
        fun d hd => hlive d (List.mem_cons_of_mem c hd)
      refine .again (.const fun _ => ?_) (by simpa using hpass)
      simp only [tree.prevSibling_of_live (hlive c List.mem_cons_self), Library.ok_bind]
      rfl

/-- The backward walk from the last child pushes a frame for every child, the first one on top. -/
theorem pushChildren_children {α : Type} (frame : NodeId → Option NodeId → α) (l : List NodeId)
    (cursor : Option NodeId) (stack : List α) (hwalk : Walk tree.prevOf cursor l.reverse)
    (hlive : ∀ c ∈ l, tree.Live c) :
    Answers (fun fuel => pushChildren fuel tree frame cursor stack)
      (l.map (fun c => frame c (tree.prevOf c)) ++ stack) := by
  have := pushChildren_answers frame l.reverse cursor stack hwalk fun c hc =>
    hlive c (List.mem_reverse.mp hc)
  rwa [List.map_reverse, List.reverse_reverse] at this

/-- More fuel does not change what a backward walk pushes. -/
theorem pushChildren_mono {α : Type} (tree : Tree) (frame : NodeId → Option NodeId → α)
    (cursor : Option NodeId) (stack : List α) :
    FuelMono fun fuel => pushChildren fuel tree frame cursor stack :=
  .iterate_const _ _

/-! ## Freeing a subtree -/

/-- The nodes of a spanning tree of a live node are live. -/
theorem Tree.Represents.live_of_mem_ids (h : tree.Represents F) {r : Rose NodeId}
    (hr : Spans F.children r) (hroot : tree.Live r.root) {x : NodeId} (hx : x ∈ r.ids) :
    tree.Live x :=
  h.live_iff.mpr (OrderedForest.live_of_mem_subtree (h.live_iff.mp hroot)
    ((OrderedForest.mem_ids_iff_mem_subtree hr).mp hx))

/-- One pass frees a node whose links are intact, and leaves its children on the stack. -/
theorem dropPass_answers (h : tree.Represents F) {slab : Slab Node} {children : List NodeId}
    (hn : tree.Live n) (hchildren : F.children n = children)
    (hagree : ∀ x ∈ n :: children, slab.get x = tree.nodes.get x) (stack : List NodeId) :
    Answers (fun fuel => dropPass fuel ({ tree with nodes := slab }, n :: stack))
      (.again ({ tree with nodes := (slab.remove n).1 }, children ++ stack)) := by
  subst hchildren
  obtain ⟨m, hm⟩ := Option.isSome_iff_exists.mp hn
  have hlist := h.isChildList hm
  have hmem : ∀ {c}, c ∈ F.children n → slab.get c = tree.nodes.get c := fun hc =>
    hagree _ (List.mem_cons_of_mem n hc)
  have hlast : ({ tree with nodes := slab } : Tree).lastChild n = .ok m.lastChild := by
    rw [Tree.lastChild, Tree.get, Slab.index_eq_ok.mpr ((hagree n List.mem_cons_self).trans hm)]
    rfl
  -- the slots of the children are intact, so the backward links can still be walked
  have hwalk : Walk ({ tree with nodes := slab } : Tree).prevOf m.lastChild
      (F.children n).reverse := by
    refine hlist.backward.congr fun c hc => ?_
    rw [Tree.prevOf, Tree.prevOf, hmem (List.mem_reverse.mp hc)]
  have hpush := pushChildren_children (fun child _ => child) (F.children n) m.lastChild stack hwalk
    fun c hc => by
      rw [Tree.Live, hmem hc]
      exact h.live_iff.mpr (F.live_child (F.mem_children.mp hc))
  refine .bind (.const fun _ => hlast) (.bind hpush (.const fun _ => ?_))
  simp

/-- Subtrees that are freed one after the other do not disturb each other. -/
theorem dropPass_clears_all {ks : List (Rose NodeId)} (hnodup : (Rose.idsAll ks).Nodup)
    (hks : ∀ k ∈ ks, ∀ slab : Slab Node, (∀ x ∈ k.ids, slab.get x = tree.nodes.get x) →
      Clears .outOfFuel dropPass { tree with nodes := slab } [k.root]
        { tree with nodes := slab.removeAll k.ids })
    (slab : Slab Node) (hagree : ∀ x ∈ Rose.idsAll ks, slab.get x = tree.nodes.get x) :
    Clears .outOfFuel dropPass { tree with nodes := slab } (ks.map Rose.root)
      { tree with nodes := slab.removeAll (Rose.idsAll ks) } := by
  induction ks generalizing slab with
  | nil => exact .nil _
  | cons k ks ih =>
      rw [Rose.idsAll_cons] at hagree hnodup
      rw [Rose.idsAll_cons, Slab.removeAll_append, List.map_cons]
      obtain ⟨-, hnodup', hdisjoint⟩ := List.nodup_append.mp hnodup
      have hk := hks k List.mem_cons_self slab fun x hx => hagree x (List.mem_append_left _ hx)
      refine hk.append (ih hnodup' (fun q hq => hks q (List.mem_cons_of_mem k hq)) _ ?_)
      -- the later trees have no node in common with the first
      intro x hx
      rw [Slab.get_removeAll, if_neg fun hxk => hdisjoint x hxk x hx rfl]
      exact hagree x (List.mem_append_right _ hx)

/-- **Freeing a subtree.** From a slab that agrees with the tree on the subtree, the loop takes the
root of the subtree off the stack and frees the subtree in depth-first pre-order. -/
theorem dropPass_clears (h : tree.Represents F) {r : Rose NodeId} (hr : Spans F.children r)
    (hroot : tree.Live r.root) (slab : Slab Node)
    (hagree : ∀ x ∈ r.ids, slab.get x = tree.nodes.get x) :
    Clears .outOfFuel dropPass { tree with nodes := slab } [r.root]
      { tree with nodes := slab.removeAll r.ids } := by
  induction hr generalizing slab with
  | @node n ks hkids hspans ih =>
      have hnodup : (n :: Rose.idsAll ks).Nodup := by
        simpa using OrderedForest.nodup_ids (.node hkids hspans)
      have hlive : ∀ k ∈ ks, tree.Live k.root := h.live_kids hkids
      rw [Rose.ids_node, Rose.root_node] at *
      -- the root is freed first; what lies below it still agrees with the tree
      refine .push (dropPass_answers h hroot hkids fun x hx => hagree x ?_) ?_
      · rcases List.mem_cons.mp hx with rfl | hx
        · exact List.mem_cons_self
        · obtain ⟨k, hk, rfl⟩ := List.mem_map.mp hx
          exact List.mem_cons_of_mem n (Rose.mem_idsAll.mpr ⟨k, hk, k.root_mem_ids⟩)
      · refine dropPass_clears_all (List.nodup_cons.mp hnodup).2
          (fun k hk slab' => ih k hk (hlive k hk) slab') _ fun x hx => ?_
        rw [Slab.get_remove, if_neg, hagree x (List.mem_cons_of_mem n hx)]
        rintro rfl
        exact (List.nodup_cons.mp hnodup).1 hx

/-- **`drop_subtree` frees exactly the subtree**, in depth-first pre-order. -/
theorem dropSubtree_answers (h : tree.Represents F) {r : Rose NodeId} (hr : Spans F.children r)
    (hroot : tree.Live r.root) :
    Answers (fun fuel => dropSubtree fuel tree r.root)
      { tree with nodes := tree.nodes.removeAll r.ids } :=
  ((dropPass_clears h hr hroot tree.nodes fun _ _ => rfl).loopAnswers
    (.const fun _ => rfl)).answers

/-- More fuel does not change the result of `dropSubtree`. -/
theorem dropSubtree_mono (tree : Tree) (node : NodeId) :
    FuelMono fun fuel => dropSubtree fuel tree node := by
  refine .iterate (fun s => ?_) _
  rcases s with ⟨tree, _ | ⟨current, stack⟩⟩
  · exact .const _
  · exact .bind (.const _) fun _ => .bind (pushChildren_mono _ _ _ _) fun _ => .const _

/-- More fuel does not change the result of `remove`. -/
theorem remove_mono (tree : Tree) (node : NodeId) :
    FuelMono fun fuel => remove fuel tree node :=
  .bind (.const _) fun tree₁ => dropSubtree_mono tree₁ node

/-! ## Removing -/

/-- The position of a node outside a pruned set. -/
theorem nodeOf_prune {S : Set NodeId} (hS : ∀ p c, F.parent c = some p → (p ∈ S ↔ c ∈ S))
    {id : NodeId} (hid : id ∉ S) (kind : NodeType) :
    nodeOf (F.prune S hS) id kind = nodeOf F id kind := by
  have hsiblings : ∀ p, F.parent id = some p → (F.prune S hS).children p = F.children p :=
    fun p hp => if_neg fun hpS => hid ((hS p id hp).mp hpS)
  have hparent : (F.prune S hS).parent id = F.parent id := if_neg hid
  have hchildren : (F.prune S hS).children id = F.children id := if_neg hid
  rw [nodeOf, nodeOf, hparent, hchildren]
  rcases hp : F.parent id with _ | p
  · rfl
  · simp only [Option.bind_some, hsiblings p hp]

/-- Freeing the subtree of a parentless node is pruning it. -/
theorem Tree.Represents.removeAll (h : tree.Represents F) {S : Set NodeId} {ids : List NodeId}
    (hS : ∀ p c, F.parent c = some p → (p ∈ S ↔ c ∈ S)) (hids : ∀ id, id ∈ ids ↔ id ∈ S) :
    ({ tree with nodes := tree.nodes.removeAll ids } : Tree).Represents (F.prune S hS) := by
  intro id
  rw [Slab.get_removeAll, h id]
  by_cases hid : id ∈ S
  · rw [if_pos ((hids id).mpr hid)]
    simp [OrderedForest.prune, hid]
  · rw [if_neg fun hmem => hid ((hids id).mp hmem)]
    have hlabel : (F.prune S hS).label id = F.label id := if_neg hid
    rw [hlabel]
    exact congrFun (congrArg Option.map (funext fun kind => (nodeOf_prune hS hid kind).symm)) _

/-- **What `remove` computes**: it detaches the node and then frees the nodes of its subtree. -/
theorem remove_answers (h : tree.Represents F) (hn : tree.Live n) :
    ∃ tree₁ ids, unlink tree n = .ok tree₁ ∧ tree₁.Represents (F.detach n) ∧
      (ids.Nodup ∧ ∀ id, id ∈ ids ↔ id ∈ F.subtree n) ∧
      Answers (fun fuel => remove fuel tree n)
        { tree₁ with nodes := tree₁.nodes.removeAll ids } := by
  obtain ⟨tree₁, hunlink, -, h₁, -⟩ := unlink_represents h hn
  obtain ⟨r, rfl, hr⟩ := (F.detach n).exists_spans n
  refine ⟨tree₁, r.ids, hunlink, h₁, ⟨(F.detach r.root).nodup_ids hr, fun id => ?_⟩, ?_⟩
  · rw [OrderedForest.mem_ids_iff_mem_subtree hr, OrderedForest.subtree_detach_self]
  · exact .bind (.const fun _ => hunlink) (dropSubtree_answers h₁ hr
      (h₁.live_iff.mpr (h.live_iff.mp hn)))

/-- **`remove` refines deleting a node with its subtree.** -/
theorem remove_represents (h : tree.Represents F) (hn : tree.Live n) :
    ∃ tree', Answers (fun fuel => remove fuel tree n) tree' ∧ tree'.Represents (F.delete n) ∧
      tree.SameFrame tree' ∧ tree'.nodes.slots.length = tree.nodes.slots.length ∧
      (tree.nodes.WellFormed → tree'.nodes.WellFormed) := by
  obtain ⟨tree₁, ids, hunlink, h₁, ⟨-, hids⟩, hanswers⟩ := remove_answers h hn
  obtain ⟨old, -, hframe, hrewrites⟩ := unlink_ok hunlink
  refine ⟨_, hanswers, h₁.removeAll _ hids, ?_, ?_, ?_⟩
  · rw [Tree.SameFrame, hframe]
  · rw [Slab.length_removeAll, hrewrites.length_eq]
  · exact fun hslab => (hrewrites.wellFormed hslab).removeAll _

/-- **`remove` frees one node for each node of the subtree.** -/
theorem remove_len (h : tree.Represents F) (hslab : tree.nodes.WellFormed) (hn : tree.Live n)
    (hremove : Answers (fun fuel => remove fuel tree n) tree') {ids : List NodeId}
    (hnodup : ids.Nodup) (hids : ∀ id, id ∈ ids ↔ id ∈ F.subtree n) :
    tree'.len + ids.length = tree.len := by
  obtain ⟨tree₁, ids', hunlink, h₁, ⟨hnodup', hids'⟩, hanswers⟩ := remove_answers h hn
  obtain ⟨old, -, -, hrewrites⟩ := unlink_ok hunlink
  obtain rfl := hanswers.unique hremove
  have hlive : ∀ id ∈ ids', (tree₁.nodes.get id).isSome := by
    intro id hid
    apply h₁.live_iff.mpr
    rw [OrderedForest.label_detach]
    exact OrderedForest.live_of_mem_subtree (h.live_iff.mp hn) ((hids' id).mp hid)
  have hlen := (hrewrites.wellFormed hslab).len_removeAll hnodup' hlive
  have hlength : ids.length = ids'.length := by
    refine List.Perm.length_eq ((List.perm_ext_iff_of_nodup hnodup hnodup').mpr fun id => ?_)
    rw [hids, hids']
  -- unlinking frees no slot
  have hsame : tree₁.nodes.len = tree.nodes.len := by
    rw [Slab.len, Slab.len, hrewrites.length_eq, hrewrites.free_eq]
  show (tree₁.nodes.removeAll ids').len + ids.length = tree.nodes.len
  omega

/-- A node is live after `remove` iff it was live outside the subtree. -/
theorem live_delete_iff (h : tree.Represents F) (h' : tree'.Represents (F.delete n))
    (id : NodeId) : tree'.Live id ↔ tree.Live id ∧ ¬ tree.AncestorOrSelf n id := by
  rw [h'.live_iff, OrderedForest.label_delete_isSome, h.live_iff, h.ancestorOrSelf_iff]

end Sexp
