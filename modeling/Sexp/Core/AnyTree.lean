import Sexp.Core.Contract
import Sexp.Core.Copying

/-! # Removing and cloning, on any tree

The contracts of the mutations speak of consistent trees. What `remove` and `clone_subtree` keep of
any tree on which they return is less, and needs no links to make sense: the frame of a removal, the
free list, and the way in which a copy comes about (`Tree.Grown`): from a single node, by
allocations that are each followed by an `append`. -/

namespace Sexp

open Library (OrderedForest FuelMono)

variable {tree tree' : Tree} {fuel : Nat} {n : NodeId}

/-! ## Attaching -/

/-- Detaching a node if it is attached changes no live node. -/
theorem unlinkIfAttached_live {id : NodeId} (h : unlinkIfAttached tree n = .ok tree') :
    tree'.Live id ↔ tree.Live id := by
  obtain ⟨old, -, -, hrewrites⟩ := unlinkIfAttached_ok h
  rw [Tree.Live, hrewrites.isSome_iff, Tree.Live]

/-- The parent of `insert_after` is live, whatever its sibling is. -/
theorem insertAfter_live_parent {parent sibling child : NodeId}
    (h : insertAfter fuel tree parent (some sibling) child = .ok tree') : tree.Live parent := by
  rw [insertAfter] at h
  obtain ⟨-, tree₁, hunlink, h⟩ := guarded_ok h
  obtain ⟨s, -, h⟩ := Library.bind_eq_ok.mp h
  obtain ⟨s₁, h₁, h⟩ := Library.bind_eq_ok.mp h
  obtain ⟨s₂, h₂, h⟩ := Library.bind_eq_ok.mp h
  obtain ⟨s₃, h₃, h⟩ := Library.bind_eq_ok.mp h
  obtain ⟨s₄, h₄, -⟩ := Library.bind_eq_ok.mp h
  obtain ⟨hlive, -⟩ := Slab.modify_eq_ok.mp h₄
  rw [← unlinkIfAttached_live hunlink, Tree.Live]
  rwa [(linkBackward_ok h₃).isSome_iff, (Slab.Rewrites.of_modify h₂).isSome_iff,
    (Slab.Rewrites.of_modify h₁).isSome_iff] at hlive

namespace Attachment

variable {op : Attachment} {parent child : NodeId}

/-- An attachment that returns has been let pass by the guard. -/
theorem run_guard (h : op.run fuel tree parent child = .ok tree') :
    wouldCreateCycle fuel tree parent child = .ok false := by
  match op with
  | append => exact (append_ok h).1
  | prepend => exact (prepend_ok h).1
  | insertAfter none => exact (insertAfter_none_ok h).1
  | insertAfter (some sibling) => exact (insertAfter_some_ok h).1

/-- The child of an attachment that returns is live. -/
theorem run_live_child (h : op.run fuel tree parent child = .ok tree') : tree.Live child :=
  (wouldCreateCycle_ok (run_guard h)).1

/-- **The parent of an attachment that returns is live**: its child count is written. -/
theorem run_live_parent (h : op.run fuel tree parent child = .ok tree') : tree.Live parent := by
  match op with
  | append =>
      obtain ⟨-, tree₁, p, hunlink, hp, -⟩ := append_ok h
      rw [← unlinkIfAttached_live hunlink, Tree.Live, hp]
      rfl
  | prepend =>
      obtain ⟨-, tree₁, p, hunlink, hp, -⟩ := prepend_ok h
      rw [← unlinkIfAttached_live hunlink, Tree.Live, hp]
      rfl
  | insertAfter none =>
      obtain ⟨-, tree₁, hunlink, hprepend⟩ := insertAfter_none_ok h
      obtain ⟨-, tree₂, p, hunlink', hp, -⟩ := prepend_ok hprepend
      rw [← unlinkIfAttached_live hunlink, ← unlinkIfAttached_live hunlink', Tree.Live, hp]
      rfl
  | insertAfter (some sibling) => exact insertAfter_live_parent h

/-- **An attachment that returns** has moved the subtree of the child, when the child is neither the
parent nor an ancestor of it and the operation fits. -/
theorem run_moved (hcons : tree.Consistent) (hbelow : ¬ tree.AncestorOrSelf child parent)
    (hfits : op.Fits tree parent child) (h : op.run fuel tree parent child = .ok tree') :
    tree'.Consistent ∧ tree.Moved tree' parent child (op.put child) := by
  obtain ⟨tree₁, hanswers, hcons', hmoved⟩ :=
    run_consistent op hcons (run_live_parent h) (run_live_child h) hbelow hfits
  obtain rfl : tree' = tree₁ := hanswers.eq_of_ok (run_mono op tree parent child) h
  exact ⟨hcons', hmoved⟩

end Attachment

/-- **What `insert_after` writes at the child**, whatever its sibling is: the parent, and the
sibling as its previous sibling. -/
theorem insertAfter_some_links {F : OrderedForest NodeId NodeType} {parent sibling child : NodeId}
    (hF : tree.Represents F)
    (h : insertAfter fuel tree parent (some sibling) child = .ok tree') :
    tree'.parentOf child = some parent ∧ tree'.prevOf child = some sibling := by
  obtain ⟨hguard, tree₁, s, hunlink, hs, hattached⟩ := insertAfter_some_ok h
  obtain ⟨tree₂, hunlink', -, h₁, -⟩ :=
    unlinkIfAttached_represents hF (wouldCreateCycle_ok hguard).1
  obtain rfl : tree₁ = tree₂ := by simpa [hunlink] using hunlink'
  obtain ⟨n, hn⟩ : ∃ n, tree₁.nodes.get child = some n :=
    Option.isSome_iff_exists.mp ((unlinkIfAttached_live hunlink).mpr (wouldCreateCycle_ok hguard).1)
  -- the detached child is no longer behind the sibling
  have hnext : s.nextSibling ≠ some child := by
    obtain ⟨-, heq⟩ := h₁.eq_nodeOf hs
    rw [heq]
    intro hchild
    obtain ⟨q, -, hq⟩ := Option.bind_eq_some_iff.mp hchild
    have hmem := Library.mem_of_nextIn hq
    rw [OrderedForest.children_detach, (F.nodup_children q).mem_erase_iff] at hmem
    exact hmem.1 rfl
  have hget := hattached.rewrites.get_eq child
  rw [hn, Option.map_some] at hget
  rw [Tree.parentOf, Tree.prevOf, hget]
  constructor
  · simp [Node.attachStep]
  · simp [Node.attachStep, hnext]

/-- **`insert_after` behind a node that is no other child of the parent corrupts the tree**, or
changes the child lists: a consistent tree with the child lists from before shows that the sibling
was a child of the parent, other than the child. -/
theorem insertAfter_some_fits {F G : OrderedForest NodeId NodeType} {parent sibling child : NodeId}
    (hF : tree.Represents F) (h : insertAfter fuel tree parent (some sibling) child = .ok tree')
    (hG : tree'.Represents G) (hsame : G.children = F.children) :
    tree.parentOf sibling = some parent ∧ sibling ≠ child := by
  obtain ⟨hparent, hprev⟩ := insertAfter_some_links hF h
  rw [hG.parentOf_eq] at hparent
  rw [hG.prevOf_eq hparent] at hprev
  constructor
  · rw [hF.parentOf_eq, ← F.mem_children, ← hsame]
    exact Library.mem_of_prevIn hprev
  · rintro rfl
    exact Library.prevIn_ne_self (G.nodup_children parent) sibling hprev

/-! ## The backward walk over the children -/

/-- **The frames that a backward walk pushes** satisfy `Q`, when the frames of all nodes in `S` do
and the walk does not leave `S`. -/
theorem pushChildren_forall {α : Type} {frame : NodeId → Option NodeId → α} {S : NodeId → Prop}
    {Q : α → Prop} {cursor : Option NodeId} {stack stack' : List α}
    (hprev : ∀ id m, tree.nodes.get id = some m → ∀ q, m.previousSibling = some q → S q)
    (hframe : ∀ c prev, S c → Q (frame c prev)) (hcursor : ∀ c, cursor = some c → S c)
    (hstack : ∀ f ∈ stack, Q f)
    (h : pushChildren fuel tree frame cursor stack = .ok stack') : ∀ f ∈ stack', Q f := by
  refine Library.iterate_invariant
    (fun s : Option NodeId × List α => (∀ c, s.1 = some c → S c) ∧ ∀ f ∈ s.2, Q f)
    (fun stack' => ∀ f ∈ stack', Q f) ?_ ?_ ⟨hcursor, hstack⟩ h
  · rintro ⟨_ | c, stack₁⟩ s' ⟨hc, hs⟩ hpass
    · cases hpass
    · obtain ⟨prev, hread, hpass⟩ := Library.bind_eq_ok.mp hpass
      cases hpass
      -- the next node on the walk is the previous sibling of a live one
      obtain ⟨m, hm, hpure⟩ := Library.bind_eq_ok.mp hread
      cases hpure
      exact ⟨hprev c m (Slab.index_eq_ok.mp hm),
        List.forall_mem_cons.mpr ⟨hframe c _ (hc c rfl), hs⟩⟩
  · rintro ⟨_ | c, stack₁⟩ stack₂ ⟨hc, hs⟩ hpass
    · cases hpass
      exact hs
    · obtain ⟨prev, -, hpass⟩ := Library.bind_eq_ok.mp hpass
      cases hpass

/-! ## Removing -/

/-- A pass of `drop_subtree` that goes on has popped a node, pushed its children and freed it. -/
theorem dropPass_again {stack : List NodeId} {s : Tree × List NodeId}
    (h : dropPass fuel (tree, stack) = .ok (.again s)) :
    ∃ current rest cursor rest', stack = current :: rest ∧
      tree.lastChild current = .ok cursor ∧
      pushChildren fuel tree (fun child _ => child) cursor rest = .ok rest' ∧
      s = ({ tree with nodes := (tree.nodes.remove current).1 }, rest') := by
  rcases stack with _ | ⟨current, rest⟩
  · cases h
  · obtain ⟨cursor, hlast, h⟩ := Library.bind_eq_ok.mp h
    obtain ⟨rest', hpush, h⟩ := Library.bind_eq_ok.mp h
    cases h
    exact ⟨current, rest, cursor, rest', rfl, hlast, hpush, rfl⟩

/-- The loop of `drop_subtree` is left when the stack is empty. -/
theorem dropPass_leave {stack : List NodeId}
    (h : dropPass fuel (tree, stack) = .ok (.leave tree')) : stack = [] ∧ tree' = tree := by
  rcases stack with _ | ⟨current, rest⟩
  · cases h
    exact ⟨rfl, rfl⟩
  · obtain ⟨cursor, -, h⟩ := Library.bind_eq_ok.mp h
    obtain ⟨rest', -, h⟩ := Library.bind_eq_ok.mp h
    cases h

/-- **The invariant rule of `drop_subtree`**: what freeing a popped node keeps, together with what
is known of the nodes on the stack. -/
theorem dropSubtree_invariant (Inv : Tree → Prop) (S : NodeId → Prop)
    (hfree : ∀ t c, Inv t → S c → Inv { t with nodes := (t.nodes.remove c).1 })
    (hlinks : ∀ t id m, Inv t → t.nodes.get id = some m →
      (∀ q, m.lastChild = some q → S q) ∧ ∀ q, m.previousSibling = some q → S q)
    (hInv : Inv tree) (hn : S n) (h : dropSubtree fuel tree n = .ok tree') : Inv tree' := by
  refine Library.iterate_invariant
    (fun s : Tree × List NodeId => Inv s.1 ∧ ∀ c ∈ s.2, S c) Inv ?_ ?_
    ⟨hInv, List.forall_mem_singleton.mpr hn⟩ h
  · rintro ⟨t, stack⟩ s' ⟨ht, hs⟩ hpass
    obtain ⟨c, rest, cursor, rest', rfl, hlast, hpush, rfl⟩ := dropPass_again hpass
    -- what is pushed is named by links of nodes of `t`
    obtain ⟨m, hm, hpure⟩ := Library.bind_eq_ok.mp hlast
    cases hpure
    obtain ⟨hc, hs⟩ := List.forall_mem_cons.mp hs
    exact ⟨hfree t c ht hc, pushChildren_forall (fun id m' hm' => (hlinks t id m' ht hm').2)
      (fun _ _ hd => hd) (hlinks t c m ht (Slab.index_eq_ok.mp hm)).1 hs hpush⟩
  · rintro ⟨t, stack⟩ t' ⟨ht, -⟩ hpass
    obtain ⟨-, rfl⟩ := dropPass_leave hpass
    exact ht

/-- A node that is removed is live. -/
theorem remove_live (h : remove fuel tree n = .ok tree') : tree.Live n := by
  obtain ⟨tree₁, hunlink, -⟩ := Library.bind_eq_ok.mp h
  obtain ⟨old, hold, -, -⟩ := unlink_ok hunlink
  rw [Tree.Live, hold]
  rfl

/-- `remove` changes nothing but the nodes. -/
theorem remove_sameFrame (h : remove fuel tree n = .ok tree') : tree.SameFrame tree' := by
  obtain ⟨tree₁, hunlink, hdrop⟩ := Library.bind_eq_ok.mp h
  obtain ⟨old, -, hframe, -⟩ := unlink_ok hunlink
  refine dropSubtree_invariant tree.SameFrame (fun _ => True) (fun t c ht _ => ?_)
    (fun _ _ _ _ _ => ⟨fun _ _ => trivial, fun _ _ => trivial⟩) hframe trivial hdrop
  rw [Tree.SameFrame, ht]

/-- **A removal that returns** has deleted the subtree of the node, when the tree is consistent. -/
theorem remove_deleted (hcons : tree.Consistent) (h : remove fuel tree n = .ok tree') :
    tree'.Consistent ∧ tree.Deleted tree' n ∧
      ∀ id, tree'.Live id ↔ tree.Live id ∧ ¬ tree.AncestorOrSelf n id := by
  obtain ⟨tree₁, hanswers, hcons', hdeleted, -, hlive⟩ := remove_consistent hcons (remove_live h)
  obtain rfl : tree' = tree₁ := hanswers.eq_of_ok (remove_mono tree n) h
  exact ⟨hcons', hdeleted, hlive⟩

/-- `remove` keeps the free list consistent. -/
theorem remove_slab (hslab : tree.nodes.WellFormed) (h : remove fuel tree n = .ok tree') :
    tree'.nodes.WellFormed := by
  obtain ⟨tree₁, hunlink, hdrop⟩ := Library.bind_eq_ok.mp h
  obtain ⟨old, -, -, hrewrites⟩ := unlink_ok hunlink
  exact dropSubtree_invariant (fun t => t.nodes.WellFormed) (fun _ => True)
    (fun t c ht _ => ht.remove c) (fun _ _ _ _ _ => ⟨fun _ _ => trivial, fun _ _ => trivial⟩)
    (hrewrites.wellFormed hslab) trivial hdrop

/-! ## Cloning -/

/-- **A tree grown from a single node**: every other node has been allocated and then appended. -/
inductive Tree.Grown : Tree → Prop where
  /-- A single node. -/
  | single (kind : NodeType) : Grown (Tree.fromRaw ⟨[some (Node.unlinked kind)], []⟩ ⟨0⟩)
  /-- One more node. -/
  | append {tree tree₁ tree₂ : Tree} {fuel : Nat} {id p : NodeId} {kind : NodeType}
      (h : Grown tree) (halloc : tree.Allocated tree₁ id kind)
      (happend : Sexp.append fuel tree₁ p id = .ok tree₂) : Grown tree₂

namespace Tree.Grown

/-- A grown tree has a consistent free list. -/
theorem slab (h : tree.Grown) : tree.nodes.WellFormed := by
  induction h with
  | single kind => exact (wellFormed_single kind).slab
  | append _ halloc happend ih => exact (append_relinked happend).slab (halloc.slab ih)

/-- Nothing is cached in a grown tree. -/
theorem reprCache_eq (h : tree.Grown) : tree.reprCache = none := by
  induction h with
  | single kind => rfl
  | append _ halloc happend ih => rw [(append_relinked happend).frame, halloc.frame, ih]

/-- A grown tree is not bare. -/
theorem bare_eq (h : tree.Grown) : tree.bare = false := by
  induction h with
  | single kind => rfl
  | append _ halloc happend ih => rw [(append_relinked happend).frame, halloc.frame, ih]

end Tree.Grown

/-- What `allocCopy` does. -/
theorem allocCopy_ok {kind : NodeType} {id : NodeId}
    (h : allocCopy tree kind = .ok (tree', id)) : tree.Allocated tree' id kind := by
  cases kind with
  | atom value => exact allocAtom_ok h
  | list => exact allocList_ok h

/-- **The invariant rule of `clone_into`**: what allocating a copy of a node of the source and
appending it keeps. -/
theorem cloneInto_invariant {source : Tree} {p : NodeId} (Inv : Tree → Prop)
    (hcopy : ∀ t t₁ t₂ src m q id, Inv t → source.nodes.get src = some m →
      t.Allocated t₁ id m.kind → append fuel t₁ q id = .ok t₂ → Inv t₂)
    (hInv : Inv tree) (h : cloneInto fuel source n tree p = .ok tree') : Inv tree' := by
  refine Library.iterate_invariant (fun s : Tree × List (NodeId × NodeId) => Inv s.1)
    Inv ?_ ?_ hInv h
  · -- a pass that goes on has allocated one copy and appended it
    rintro ⟨t, _ | ⟨⟨src, q⟩, stack⟩⟩ s' ht hpass
    · cases hpass
    · obtain ⟨m, hm, hpass⟩ := Library.bind_eq_ok.mp hpass
      obtain ⟨⟨t₁, id⟩, halloc, hpass⟩ := Library.bind_eq_ok.mp hpass
      obtain ⟨t₂, happend, hpass⟩ := Library.bind_eq_ok.mp hpass
      obtain ⟨cursor, -, hpass⟩ := Library.bind_eq_ok.mp hpass
      obtain ⟨stack', -, hpass⟩ := Library.bind_eq_ok.mp hpass
      cases hpass
      exact hcopy t t₁ t₂ src m q id ht (Slab.index_eq_ok.mp hm) (allocCopy_ok halloc) happend
  · -- the loop is left with the worklist empty
    rintro ⟨t, _ | ⟨⟨src, q⟩, stack⟩⟩ t' ht hpass
    · cases hpass
      exact ht
    · obtain ⟨m, -, hpass⟩ := Library.bind_eq_ok.mp hpass
      obtain ⟨⟨t₁, id⟩, -, hpass⟩ := Library.bind_eq_ok.mp hpass
      obtain ⟨t₂, -, hpass⟩ := Library.bind_eq_ok.mp hpass
      obtain ⟨cursor, -, hpass⟩ := Library.bind_eq_ok.mp hpass
      obtain ⟨stack', -, hpass⟩ := Library.bind_eq_ok.mp hpass
      cases hpass

/-- **The invariant rule of `clone_subtree`** for a node other than the root: what holds of the copy
of the node alone, and is kept by copying one more node. -/
theorem cloneSubtree_invariant {source copy : Tree} (Inv : Tree → Prop) (hne : n ≠ source.root)
    (hsingle : ∀ m, source.nodes.get n = some m →
      Inv (Tree.fromRaw ⟨[some (Node.unlinked m.kind)], []⟩ ⟨0⟩))
    (hcopy : ∀ t t₁ t₂ src m q id, Inv t → source.nodes.get src = some m →
      t.Allocated t₁ id m.kind → append fuel t₁ q id = .ok t₂ → Inv t₂)
    (h : cloneSubtree fuel source n = .ok copy) : Inv copy := by
  rw [cloneSubtree, if_neg hne] at h
  obtain ⟨m, hm, h⟩ := Library.bind_eq_ok.mp h
  have hone := hsingle m (Slab.index_eq_ok.mp hm)
  -- an atom is copied alone; below a list the copies of the children are appended one by one
  rcases hkind : m.kind with atom | _
  · rw [hkind] at h hone
    cases h
    exact hone
  · rw [hkind] at h hone
    obtain ⟨destination, hnew, h⟩ := Library.bind_eq_ok.mp h
    obtain ⟨cursor, -, h⟩ := Library.bind_eq_ok.mp h
    cases hnew
    refine Library.iterate_invariant (fun s : Tree × Option NodeId => Inv s.1) Inv ?_ ?_ hone h
    · rintro ⟨t, _ | c⟩ s' ht hpass
      · cases hpass
      · obtain ⟨next, -, hpass⟩ := Library.bind_eq_ok.mp hpass
        obtain ⟨t₁, hinto, hpass⟩ := Library.bind_eq_ok.mp hpass
        cases hpass
        exact cloneInto_invariant Inv hcopy ht hinto
    · rintro ⟨t, _ | c⟩ t' ht hpass
      · cases hpass
        exact ht
      · obtain ⟨next, -, hpass⟩ := Library.bind_eq_ok.mp hpass
        obtain ⟨t₁, -, hpass⟩ := Library.bind_eq_ok.mp hpass
        cases hpass

/-- **A copy of a node other than the root is grown from a single node.** -/
theorem cloneSubtree_grown {source copy : Tree} (hne : n ≠ source.root)
    (h : cloneSubtree fuel source n = .ok copy) : copy.Grown := by
  refine cloneSubtree_invariant Tree.Grown hne (fun m _ => .single m.kind) ?_ h
  intro t t₁ t₂ src m q id ht _ halloc happend
  exact ht.append halloc happend

/-! ## Cloning is monotone in the fuel -/

/-- More fuel does not change the result of `cloneInto`. -/
theorem cloneInto_mono (source : Tree) (node : NodeId) (destination : Tree) (parent : NodeId) :
    FuelMono fun fuel => cloneInto fuel source node destination parent := by
  refine .iterate (fun s => ?_) _
  rcases s with ⟨t, _ | ⟨⟨src, q⟩, stack⟩⟩
  · exact .const _
  · refine .bind (.const _) fun m => .bind (.const _) fun p => ?_
    refine .bind (append_mono p.1 q p.2) fun t₂ => .bind (.const _) fun cursor => ?_
    exact .bind (pushChildren_mono _ _ _ _) fun _ => .const _

/-- More fuel does not change the result of `cloneSubtree`. -/
theorem cloneSubtree_mono (source : Tree) (node : NodeId) :
    FuelMono fun fuel => cloneSubtree fuel source node := by
  unfold cloneSubtree
  by_cases hroot : node = source.root
  · simp only [if_pos hroot]
    exact .const _
  · simp only [if_neg hroot]
    refine .bind (.const _) fun m => ?_
    rcases m.kind with atom | _
    · exact .const _
    · refine .bind (.const _) fun destination => .bind (.const _) fun cursor => ?_
      refine .iterate (fun s => ?_) _
      rcases s with ⟨t, _ | c⟩
      · exact .const _
      · exact .bind (.const _) fun _ => .bind (cloneInto_mono _ _ _ _) fun _ => .const _

/-- A node that is cloned is live, unless it is the root. -/
theorem cloneSubtree_live {source copy : Tree} (hne : n ≠ source.root)
    (h : cloneSubtree fuel source n = .ok copy) : source.Live n := by
  rw [cloneSubtree, if_neg hne] at h
  obtain ⟨m, hm, -⟩ := Library.bind_eq_ok.mp h
  rw [Tree.Live, Slab.index_eq_ok.mp hm]
  rfl

/-- **A copy of a node of a consistent tree** other than the root is well-formed, and its root has
no parent. -/
theorem cloneSubtree_wellFormed {source copy : Tree} (hcons : source.Consistent)
    (hne : n ≠ source.root) (h : cloneSubtree fuel source n = .ok copy) :
    copy.WellFormed ∧ copy.parentOf copy.root = none := by
  obtain ⟨F, hF⟩ := hcons.exists_represents
  obtain ⟨r, rfl, hr⟩ := F.exists_spans n
  obtain ⟨copy', hanswers, hcopy⟩ := cloneSubtree_answers hF hr (cloneSubtree_live hne h) hne
  obtain rfl : copy = copy' := hanswers.eq_of_ok (cloneSubtree_mono source r.root) h
  exact ⟨hcopy.wellFormed, hcopy.root_parentless⟩

end Sexp
