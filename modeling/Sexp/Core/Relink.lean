import Sexp.Core.Mutation

/-! # What the mutations write

Detaching a node and attaching it rewrite link fields of up to five nodes, some of which may be
the same node. `Node.detachStep` and `Node.attachStep` say field by field what becomes of the node
at each id, whatever ids coincide; the theorems `unlink_ok`, `append_ok`, `prepend_ok` and
`insertAfter_ok` read this off the code, for every tree on which the operation returns. -/

namespace Sexp

/-! ## Slabs rewritten in place -/

/-- **A slab rewritten in place**: the value at every key is replaced by its image under `g`, and
no slot is freed or allocated. -/
structure Slab.Rewrites {α : Type} (slab slab' : Slab α) (g : Key → α → α) : Prop where
  /-- Every value is replaced by its image. -/
  get_eq : ∀ id, slab'.get id = (slab.get id).map (g id)
  /-- There are as many slots as before. -/
  length_eq : slab'.slots.length = slab.slots.length
  /-- The free list is kept. -/
  free_eq : slab'.free = slab.free
  /-- The free list stays consistent. -/
  wellFormed : slab.WellFormed → slab'.WellFormed

namespace Slab

variable {α : Type} {slab slab' slab'' : Slab α} {g g' : Key → α → α} {key : Key} {f : α → α}

/-- Doing nothing rewrites every value to itself. -/
theorem Rewrites.refl (slab : Slab α) : slab.Rewrites slab fun _ v => v :=
  ⟨fun id => by simp, rfl, rfl, fun h => h⟩

/-- Rewriting twice is rewriting by the composition. -/
theorem Rewrites.trans (h : slab.Rewrites slab' g) (h' : slab'.Rewrites slab'' g') :
    slab.Rewrites slab'' fun id v => g' id (g id v) := by
  refine ⟨fun id => ?_, h'.length_eq.trans h.length_eq, h'.free_eq.trans h.free_eq,
    fun hwf => h'.wellFormed (h.wellFormed hwf)⟩
  rw [h'.get_eq, h.get_eq, Option.map_map]
  rfl

/-- Rewriting by equal functions is the same. -/
theorem Rewrites.congr (h : slab.Rewrites slab' g) (heq : ∀ id v, g id v = g' id v) :
    slab.Rewrites slab' g' := by
  obtain rfl : g = g' := funext fun id => funext fun v => heq id v
  exact h

/-- A rewritten slab has the same live keys. -/
theorem Rewrites.isSome_iff (h : slab.Rewrites slab' g) (id : Key) :
    (slab'.get id).isSome = (slab.get id).isSome := by
  rw [h.get_eq, Option.isSome_map]

/-- A successful assignment rewrites one value. -/
theorem Rewrites.of_modify (h : slab.modify key f = .ok slab') :
    slab.Rewrites slab' fun id v => if id = key then f v else v := by
  obtain ⟨-, rfl⟩ := modify_eq_ok.mp h
  exact ⟨get_update slab key f, by simp [update], rfl, fun hwf => hwf.update key f⟩

/-- Assigning to a live key succeeds. -/
theorem modify_of_live (h : (slab.get key).isSome) (f : α → α) :
    slab.modify key f = .ok (slab.update key f) :=
  modify_eq_ok.mpr ⟨h, rfl⟩

/-- An update changes no live key. -/
@[simp] theorem isSome_get_update (slab : Slab α) (key : Key) (f : α → α) (id : Key) :
    ((slab.update key f).get id).isSome = (slab.get id).isSome := by
  rw [get_update, Option.isSome_map]

end Slab

/-! ## Detaching -/

/-- **What detaching `node` makes of the node `n` at `id`**, where `old` is the node detached. -/
def Node.detachStep (node : NodeId) (old : Node) (id : NodeId) (n : Node) : Node where
  kind := n.kind
  parent := if id = node then none else n.parent
  firstChild :=
    if old.previousSibling = none ∧ old.parent = some id then old.nextSibling else n.firstChild
  lastChild :=
    if old.nextSibling = none ∧ old.parent = some id then old.previousSibling else n.lastChild
  previousSibling :=
    if id = node then none
    else if old.nextSibling = some id then old.previousSibling
    else n.previousSibling
  nextSibling :=
    if id = node then none
    else if old.previousSibling = some id then old.nextSibling
    else n.nextSibling
  childCount := if old.parent = some id then n.childCount - 1 else n.childCount

/-- The tree `tree'` is `tree` with other nodes in the slab; root, version and cache are kept. -/
def Tree.SameFrame (tree tree' : Tree) : Prop := tree' = { tree with nodes := tree'.nodes }

/-- The assignment to a forward link: of the previous sibling, else of the parent. -/
theorem linkForward_ok {slab slab' : Slab Node} {previous parent x : Option NodeId}
    (h : linkForward slab previous parent x = .ok slab') :
    slab.Rewrites slab' fun id n =>
      { n with
        nextSibling := if previous = some id then x else n.nextSibling
        firstChild := if previous = none ∧ parent = some id then x else n.firstChild } := by
  rcases previous with _ | q
  · rcases parent with _ | p
    · obtain rfl : slab = slab' := by simpa [linkForward] using h
      exact (Slab.Rewrites.refl slab).congr fun id n => by simp
    · refine (Slab.Rewrites.of_modify h).congr fun id n => ?_
      by_cases hid : id = p
      · simp [hid]
      · simp [hid, Ne.symm hid]
  · refine (Slab.Rewrites.of_modify h).congr fun id n => ?_
    by_cases hid : id = q
    · simp [hid]
    · simp [hid, Ne.symm hid]

/-- The assignment to a backward link: of the next sibling, else of the parent. -/
theorem linkBackward_ok {slab slab' : Slab Node} {next parent x : Option NodeId}
    (h : linkBackward slab next parent x = .ok slab') :
    slab.Rewrites slab' fun id n =>
      { n with
        previousSibling := if next = some id then x else n.previousSibling
        lastChild := if next = none ∧ parent = some id then x else n.lastChild } := by
  rcases next with _ | q
  · rcases parent with _ | p
    · obtain rfl : slab = slab' := by simpa [linkBackward] using h
      exact (Slab.Rewrites.refl slab).congr fun id n => by simp
    · refine (Slab.Rewrites.of_modify h).congr fun id n => ?_
      by_cases hid : id = p
      · simp [hid]
      · simp [hid, Ne.symm hid]
  · refine (Slab.Rewrites.of_modify h).congr fun id n => ?_
    by_cases hid : id = q
    · simp [hid]
    · simp [hid, Ne.symm hid]

/-- The decrement of the child count of the parent, if there is one. -/
theorem countDown_ok {slab slab' : Slab Node} {parent : Option NodeId}
    (h : countDown slab parent = .ok slab') :
    slab.Rewrites slab' fun id n =>
      { n with childCount := if parent = some id then n.childCount - 1 else n.childCount } := by
  rcases parent with _ | p
  · obtain rfl : slab = slab' := by simpa [countDown] using h
    exact (Slab.Rewrites.refl slab).congr fun id n => by simp
  · refine (Slab.Rewrites.of_modify h).congr fun id n => ?_
    by_cases hid : id = p
    · simp [hid]
    · simp [hid, Ne.symm hid]

/-- **What `unlink` does when it returns.** -/
theorem unlink_ok {tree tree' : Tree} {node : NodeId} (h : unlink tree node = .ok tree') :
    ∃ old, tree.nodes.get node = some old ∧ tree.SameFrame tree' ∧
      tree.nodes.Rewrites tree'.nodes (Node.detachStep node old) := by
  rw [unlink] at h
  obtain ⟨old, hold, h⟩ := Library.bind_eq_ok.mp h
  obtain ⟨s₁, h₁, h⟩ := Library.bind_eq_ok.mp h
  obtain ⟨s₂, h₂, h⟩ := Library.bind_eq_ok.mp h
  obtain ⟨s₃, h₃, h⟩ := Library.bind_eq_ok.mp h
  obtain ⟨s₄, h₄, h⟩ := Library.bind_eq_ok.mp h
  obtain rfl : { tree with nodes := s₄ } = tree' := by simpa using h
  refine ⟨old, Slab.index_eq_ok.mp hold, rfl, ?_⟩
  refine ((((linkForward_ok h₁).trans (linkBackward_ok h₂)).trans (countDown_ok h₃)).trans
    (.of_modify h₄)).congr fun id n => ?_
  by_cases hid : id = node <;> simp [Node.detachStep, hid]

/-- Detaching a node that is attached, and nothing otherwise. -/
def Node.cutStep (node : NodeId) (old : Node) (id : NodeId) (n : Node) : Node :=
  if old.parent.isSome then Node.detachStep node old id n else n

/-- What `unlinkIfAttached` does when it returns. -/
theorem unlinkIfAttached_ok {tree tree' : Tree} {node : NodeId}
    (h : unlinkIfAttached tree node = .ok tree') :
    ∃ old, tree.nodes.get node = some old ∧ tree.SameFrame tree' ∧
      tree.nodes.Rewrites tree'.nodes (Node.cutStep node old) := by
  rw [unlinkIfAttached] at h
  obtain ⟨old, hold, h⟩ := Library.bind_eq_ok.mp h
  have hget := Slab.index_eq_ok.mp hold
  refine ⟨old, hget, ?_⟩
  by_cases hparent : old.parent.isSome = true
  · rw [if_pos hparent] at h
    obtain ⟨old', hget', hframe, hrewrites⟩ := unlink_ok h
    obtain rfl : old = old' := by simpa [hget] using hget'
    exact ⟨hframe, hrewrites.congr fun id n => by rw [Node.cutStep, if_pos hparent]⟩
  · rw [if_neg hparent] at h
    obtain rfl : tree = tree' := by simpa using h
    exact ⟨rfl, (Slab.Rewrites.refl _).congr fun id n => by rw [Node.cutStep, if_neg hparent]⟩

/-! ## Attaching -/

/-- **What attaching `child` under `parent` makes of the node `n` at `id`**, when `child` goes
between `previous` and `next`. The links of the neighbours are written after those of `child`. -/
def Node.attachStep (parent child : NodeId) (previous next : Option NodeId) (id : NodeId)
    (n : Node) : Node where
  kind := n.kind
  parent := if id = child then some parent else n.parent
  firstChild := if previous = none ∧ id = parent then some child else n.firstChild
  lastChild := if next = none ∧ id = parent then some child else n.lastChild
  previousSibling :=
    if next = some id then some child
    else if id = child then previous
    else n.previousSibling
  nextSibling :=
    if previous = some id then some child
    else if id = child then next
    else n.nextSibling
  childCount := if id = parent then n.childCount + 1 else n.childCount

/-- **One attachment**: `tree'` is `tree` with `child` linked under `parent` between `previous` and
`next`, and the version bumped. -/
structure Tree.Attached (tree tree' : Tree) (parent child : NodeId)
    (previous next : Option NodeId) : Prop where
  /-- Apart from the nodes, only the version changes. -/
  frame : tree' = { tree with nodes := tree'.nodes, version := tree.version + 1 }
  /-- The nodes are rewritten. -/
  rewrites : tree.nodes.Rewrites tree'.nodes (Node.attachStep parent child previous next)

/-- The common start of the attaching operations: the guard has let the call pass, and `child` is
detached. -/
theorem guarded_ok {fuel : Nat} {tree tree' : Tree} {parent child : NodeId} {site : Panic}
    {rest : Tree → Exec Tree}
    (h : (do
      assertThat (!(← wouldCreateCycle fuel tree parent child)) site
      let tree ← unlinkIfAttached tree child
      rest tree) = .ok tree') :
    wouldCreateCycle fuel tree parent child = .ok false ∧
      ∃ tree₁, unlinkIfAttached tree child = .ok tree₁ ∧ rest tree₁ = .ok tree' := by
  obtain ⟨cyclic, hguard, h⟩ := Library.bind_eq_ok.mp h
  obtain ⟨_, hassert, h⟩ := Library.bind_eq_ok.mp h
  obtain ⟨tree₁, hunlink, h⟩ := Library.bind_eq_ok.mp h
  have hcyclic : cyclic = false := by simpa using assertThat_eq_ok.mp hassert
  exact ⟨hcyclic ▸ hguard, tree₁, hunlink, h⟩

/-- What `append` does when it returns. -/
theorem append_ok {fuel : Nat} {tree tree' : Tree} {parent child : NodeId}
    (h : append fuel tree parent child = .ok tree') :
    wouldCreateCycle fuel tree parent child = .ok false ∧
      ∃ tree₁ p, unlinkIfAttached tree child = .ok tree₁ ∧ tree₁.nodes.get parent = some p ∧
        tree₁.Attached tree' parent child p.lastChild none := by
  rw [append] at h
  obtain ⟨hguard, tree₁, hunlink, h⟩ := guarded_ok h
  obtain ⟨p, hp, h⟩ := Library.bind_eq_ok.mp h
  obtain ⟨s₁, h₁, h⟩ := Library.bind_eq_ok.mp h
  obtain ⟨s₂, h₂, h⟩ := Library.bind_eq_ok.mp h
  obtain ⟨s₃, h₃, h⟩ := Library.bind_eq_ok.mp h
  obtain ⟨s₄, h₄, h⟩ := Library.bind_eq_ok.mp h
  obtain rfl : ({ tree₁ with nodes := s₄ } : Tree).bumpVersion = tree' := by simpa using h
  refine ⟨hguard, tree₁, p, hunlink, Slab.index_eq_ok.mp hp, rfl, ?_⟩
  refine ((((Slab.Rewrites.of_modify h₁).trans (linkForward_ok h₂)).trans
    (.of_modify h₃)).trans (.of_modify h₄)).congr fun id n => ?_
  rw [Node.attachStep]
  grind

/-- What `prepend` does when it returns. -/
theorem prepend_ok {fuel : Nat} {tree tree' : Tree} {parent child : NodeId}
    (h : prepend fuel tree parent child = .ok tree') :
    wouldCreateCycle fuel tree parent child = .ok false ∧
      ∃ tree₁ p, unlinkIfAttached tree child = .ok tree₁ ∧ tree₁.nodes.get parent = some p ∧
        tree₁.Attached tree' parent child none p.firstChild := by
  rw [prepend] at h
  obtain ⟨hguard, tree₁, hunlink, h⟩ := guarded_ok h
  obtain ⟨p, hp, h⟩ := Library.bind_eq_ok.mp h
  obtain ⟨s₁, h₁, h⟩ := Library.bind_eq_ok.mp h
  obtain ⟨s₂, h₂, h⟩ := Library.bind_eq_ok.mp h
  obtain ⟨s₃, h₃, h⟩ := Library.bind_eq_ok.mp h
  obtain ⟨s₄, h₄, h⟩ := Library.bind_eq_ok.mp h
  obtain rfl : ({ tree₁ with nodes := s₄ } : Tree).bumpVersion = tree' := by simpa using h
  refine ⟨hguard, tree₁, p, hunlink, Slab.index_eq_ok.mp hp, rfl, ?_⟩
  refine ((((Slab.Rewrites.of_modify h₁).trans (linkBackward_ok h₂)).trans
    (.of_modify h₃)).trans (.of_modify h₄)).congr fun id n => ?_
  rw [Node.attachStep]
  grind

/-- What `insertAfter` does after a sibling when it returns. -/
theorem insertAfter_some_ok {fuel : Nat} {tree tree' : Tree} {parent sibling child : NodeId}
    (h : insertAfter fuel tree parent (some sibling) child = .ok tree') :
    wouldCreateCycle fuel tree parent child = .ok false ∧
      ∃ tree₁ s, unlinkIfAttached tree child = .ok tree₁ ∧ tree₁.nodes.get sibling = some s ∧
        tree₁.Attached tree' parent child (some sibling) s.nextSibling := by
  rw [insertAfter] at h
  obtain ⟨hguard, tree₁, hunlink, h⟩ := guarded_ok h
  obtain ⟨s, hs, h⟩ := Library.bind_eq_ok.mp h
  obtain ⟨s₁, h₁, h⟩ := Library.bind_eq_ok.mp h
  obtain ⟨s₂, h₂, h⟩ := Library.bind_eq_ok.mp h
  obtain ⟨s₃, h₃, h⟩ := Library.bind_eq_ok.mp h
  obtain ⟨s₄, h₄, h⟩ := Library.bind_eq_ok.mp h
  obtain rfl : ({ tree₁ with nodes := s₄ } : Tree).bumpVersion = tree' := by simpa using h
  refine ⟨hguard, tree₁, s, hunlink, Slab.index_eq_ok.mp hs, rfl, ?_⟩
  refine ((((Slab.Rewrites.of_modify h₁).trans (.of_modify h₂)).trans
    (linkBackward_ok h₃)).trans (.of_modify h₄)).congr fun id n => ?_
  rw [Node.attachStep]
  grind

/-- What `insertAfter` does without a sibling when it returns. -/
theorem insertAfter_none_ok {fuel : Nat} {tree tree' : Tree} {parent child : NodeId}
    (h : insertAfter fuel tree parent none child = .ok tree') :
    wouldCreateCycle fuel tree parent child = .ok false ∧
      ∃ tree₁, unlinkIfAttached tree child = .ok tree₁ ∧
        prepend fuel tree₁ parent child = .ok tree' := by
  rw [insertAfter] at h
  exact guarded_ok h

/-! ## What every attachment keeps -/

/-- **What the attaching operations keep.** Root, bareness and cache stay, the version goes up by
one; no node is freed, allocated or given another content. -/
structure Tree.Relinked (tree tree' : Tree) : Prop where
  /-- Apart from the nodes, only the version changes. -/
  frame : tree' = { tree with nodes := tree'.nodes, version := tree.version + 1 }
  /-- The nodes are rewritten, and keep their content. -/
  rewrites : ∃ g, tree.nodes.Rewrites tree'.nodes g ∧ ∀ id n, (g id n).kind = n.kind

namespace Tree.Relinked

variable {tree tree' : Tree}

/-- Relinking keeps the free list. -/
theorem free_eq (h : tree.Relinked tree') : tree'.nodes.free = tree.nodes.free := by
  obtain ⟨g, hg, -⟩ := h.rewrites
  exact hg.free_eq

/-- Relinking keeps the number of slots. -/
theorem slots_eq (h : tree.Relinked tree') :
    tree'.nodes.slots.length = tree.nodes.slots.length := by
  obtain ⟨g, hg, -⟩ := h.rewrites
  exact hg.length_eq

/-- Relinking keeps the free list consistent. -/
theorem slab (h : tree.Relinked tree') (hslab : tree.nodes.WellFormed) :
    tree'.nodes.WellFormed := by
  obtain ⟨g, hg, -⟩ := h.rewrites
  exact hg.wellFormed hslab

/-- Relinking frees no node. -/
theorem isSome_iff (h : tree.Relinked tree') (id : NodeId) :
    (tree'.nodes.get id).isSome ↔ (tree.nodes.get id).isSome := by
  obtain ⟨g, hg, -⟩ := h.rewrites
  rw [hg.isSome_iff]

end Tree.Relinked

/-- Detaching keeps the content of every node. -/
theorem Node.kind_cutStep (node : NodeId) (old : Node) (id : NodeId) (n : Node) :
    (Node.cutStep node old id n).kind = n.kind := by
  rw [Node.cutStep]
  split <;> rfl

/-- Detaching a node and then relinking the tree is relinking the tree. -/
theorem Tree.Relinked.of_unlink {tree tree₁ tree' : Tree} {child : NodeId}
    (hunlink : unlinkIfAttached tree child = .ok tree₁) (h : tree₁.Relinked tree') :
    tree.Relinked tree' := by
  obtain ⟨old, -, hframe, hcut⟩ := unlinkIfAttached_ok hunlink
  obtain ⟨g, hg, hkind⟩ := h.rewrites
  refine ⟨?_, _, hcut.trans hg, fun id n => ?_⟩
  · rw [h.frame, hframe]
  · rw [hkind, Node.kind_cutStep]

/-- An attachment relinks the tree. -/
theorem Tree.Attached.relinked {tree tree' : Tree} {parent child : NodeId}
    {previous next : Option NodeId} (h : tree.Attached tree' parent child previous next) :
    tree.Relinked tree' :=
  ⟨h.frame, _, h.rewrites, fun _ _ => rfl⟩

/-- `append` relinks the tree. -/
theorem append_relinked {fuel : Nat} {tree tree' : Tree} {parent child : NodeId}
    (h : append fuel tree parent child = .ok tree') : tree.Relinked tree' := by
  obtain ⟨-, tree₁, p, hunlink, -, hattached⟩ := append_ok h
  exact .of_unlink hunlink hattached.relinked

/-- `prepend` relinks the tree. -/
theorem prepend_relinked {fuel : Nat} {tree tree' : Tree} {parent child : NodeId}
    (h : prepend fuel tree parent child = .ok tree') : tree.Relinked tree' := by
  obtain ⟨-, tree₁, p, hunlink, -, hattached⟩ := prepend_ok h
  exact .of_unlink hunlink hattached.relinked

/-- `insertAfter` relinks the tree. -/
theorem insertAfter_relinked {fuel : Nat} {tree tree' : Tree} {parent child : NodeId}
    {after : Option NodeId} (h : insertAfter fuel tree parent after child = .ok tree') :
    tree.Relinked tree' := by
  rcases after with _ | sibling
  · obtain ⟨-, tree₁, hunlink, hprepend⟩ := insertAfter_none_ok h
    exact .of_unlink hunlink (prepend_relinked hprepend)
  · obtain ⟨-, tree₁, s, hunlink, -, hattached⟩ := insertAfter_some_ok h
    exact .of_unlink hunlink hattached.relinked

end Sexp
