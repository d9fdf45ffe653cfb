import Sexp.Core.Contract
import Sexp.Py.Atomicity

/-! # What a call that returns does to the objects

A call that returns does one of a few things (`Effect`): it creates handles and iterators to nodes
that are linked from live ones, advances an iterator, creates a tree, writes the tree of its
receiver, or writes it and creates a handle or a tree. The ways to write a tree are listed by
`World.Writes`, the ways to create one by `World.Creates`. Every invariant of runs is derived from
these relations. -/

namespace Sexp

/-! ## Calls -/

/-- The receiver of a call. -/
def Call.self? : Call → Option HandleRef
  | .parse _ | .new | .next _ => none
  | .repr self | .len self | .eq self _ | .contains self _ | .getItem self _ | .iter self
  | .head self | .tail self | .isAtom self | .value self | .setValue self _ | .parent self
  | .newAtom self _ | .newList self | .append self _ | .prepend self _ | .insertAfter self _ _
  | .remove self | .clone self | .extract self => some self

/-- The content of the node that a call allocates. -/
def Call.allocates : Call → Option NodeType
  | .newAtom _ text => some (.atom (Atom.new text))
  | .newList _ => some .list
  | _ => none

/-- Whether a call removes its receiver from its tree. -/
def Call.removes : Call → Bool
  | .remove _ | .extract _ => true
  | _ => false

/-- Whether a call may change a tree other than its cache, or create one. -/
def Call.edits : Call → Bool
  | .parse _ | .new | .setValue _ _ | .newAtom _ _ | .newList _ | .append _ _ | .prepend _ _
  | .insertAfter _ _ _ | .remove _ | .clone _ | .extract _ => true
  | _ => false

/-- The text of an argument of `parse`. -/
def PySource.text : PySource → Option String
  | .str s => some s
  | .bytes b => String.fromUTF8? b
  | .object => none

/-- A node that a live node links to. -/
def Tree.Linked (tree : Tree) (x : NodeId) : Prop :=
  ∃ id n, tree.nodes.get id = some n ∧ x ∈ n.links

/-- The tree with another text in an atom, and nothing cached. -/
def Tree.withValue (tree : Tree) (node : NodeId) (value : String) : Tree :=
  { tree with
    nodes := tree.nodes.update node fun n =>
      { n with kind := .atom (Atom.new value) } }.clearReprCache

/-! ## Effects -/

/-- The world with one more tree and a handle to its root. -/
def World.push (w : World) (tree : Tree) : World where
  trees := w.trees ++ [tree]
  handles := w.handles ++ [⟨w.trees.length, tree.root, tree.version⟩]
  iters := w.iters

/-- The world with more handles and iterators. -/
def World.extend (w : World) (handles : List Handle) (iters : List SExpIter) : World where
  trees := w.trees
  handles := w.handles ++ handles
  iters := w.iters ++ iters

/-- **A call that attaches**, once all its checks have passed on the tree of its receiver: the
operation that it runs, and the node that it attaches. -/
inductive World.Attaching (w : World) (h : Handle) (tree : Tree) :
    Call → Attachment → NodeId → Prop where
  /-- `append`. -/
  | append {self child : HandleRef} {c : Handle} (hc : w.handles[child]? = some c)
      (hsame : h.tree = c.tree) : Attaching w h tree (.append self child) .append c.node
  /-- `prepend`. -/
  | prepend {self child : HandleRef} {c : Handle} (hc : w.handles[child]? = some c)
      (hsame : h.tree = c.tree) : Attaching w h tree (.prepend self child) .prepend c.node
  /-- `insert_after` with `None`. -/
  | insertFirst {self child : HandleRef} {c : Handle} (hc : w.handles[child]? = some c)
      (hsame : h.tree = c.tree) :
      Attaching w h tree (.insertAfter self none child) (.insertAfter none) c.node
  /-- `insert_after` with a sibling, which must not be stale. -/
  | insertBehind {self child after : HandleRef} {c a : Handle} (hc : w.handles[child]? = some c)
      (hsame : h.tree = c.tree) (ha : w.handles[after]? = some a) (hsame' : h.tree = a.tree)
      (hfresh : a.isStale tree = false) :
      Attaching w h tree (.insertAfter self (some after) child) (.insertAfter (some a.node)) c.node

/-- **The ways to write a tree.** The call writes `tree`, in which the receiver names a node, and
makes it `tree'`. -/
inductive World.Writes (fuel : Nat) (w : World) (h : Handle) (tree : Tree) :
    Call → Tree → Prop where
  /-- `repr` caches a text. -/
  | cache {self : HandleRef} {text : String} (htext : serializeNode fuel tree h.node = .ok text) :
      Writes fuel w h tree (.repr self) (tree.setReprCache h.node text)
  /-- A value is assigned. -/
  | value {self : HandleRef} {value : String} {n : Node} (hn : tree.nodes.get h.node = some n)
      (hatom : n.isAtom = true) :
      Writes fuel w h tree (.setValue self value) (tree.withValue h.node value)
  /-- A node is allocated. -/
  | alloc {c : Call} {id : NodeId} {kind : NodeType} {tree' : Tree} (hc : c.allocates = some kind)
      (halloc : tree.Allocated tree' id kind) : Writes fuel w h tree c tree'
  /-- A node is attached. -/
  | attach {c : Call} {op : Attachment} {child : NodeId} {tree' : Tree}
      (hop : w.Attaching h tree c op child) (hrun : op.run fuel tree h.node child = .ok tree') :
      Writes fuel w h tree c tree'
  /-- The node of the receiver is removed. -/
  | remove {c : Call} {tree₁ : Tree} (hc : c.removes = true) (hne : h.node ≠ tree.root)
      (hremove : Sexp.remove fuel tree h.node = .ok tree₁) :
      Writes fuel w h tree c tree₁.bumpVersion

/-- **The ways to create a tree.** -/
inductive World.Creates (fuel : Nat) (w : World) : Call → Tree → Prop where
  /-- `SExp()`. -/
  | new {tree : Tree} (hnew : Tree.new = .ok tree) : Creates fuel w .new tree
  /-- `parse`. -/
  | parse {source : PySource} {s : String} {tree : Tree} (hs : source.text = some s)
      (hparse : Sexp.parse fuel s = .ok (.ok tree)) : Creates fuel w (.parse source) tree
  /-- A subtree is copied. -/
  | clone {self : HandleRef} {h : Handle} {tree copy : Tree} (hself : w.Receives self h tree)
      (hclone : cloneSubtree fuel tree h.node = .ok copy) : Creates fuel w (.clone self) copy
  /-- A subtree is copied before it is removed. -/
  | extract {self : HandleRef} {h : Handle} {tree copy : Tree} (hself : w.Receives self h tree)
      (hne : h.node ≠ tree.root) (hclone : cloneSubtree fuel tree h.node = .ok copy) :
      Creates fuel w (.extract self) copy

/-- A handle that a call creates to a node that it has reached in the tree of its receiver. -/
def World.Reaches (w : World) (c : Call) (t : Nat) (version : UInt64) (x : NodeId) : Prop :=
  ∃ self h tree, c.self? = some self ∧ w.Receives self h tree ∧ t = h.tree ∧
    version = tree.version ∧ tree.Linked x

/-- **What a call that returns does.** -/
inductive Effect (fuel : Nat) (w : World) : Call → Value → World → Prop where
  /-- Handles and iterators to nodes of the receiver's tree are created. -/
  | observe {c : Call} {v : Value} {handles : List Handle} {iters : List SExpIter}
      (hc : c.edits = false) (hhandles : ∀ h ∈ handles, w.Reaches c h.tree h.version h.node)
      (hiters : ∀ it ∈ iters, (∃ self h tree, c.self? = some self ∧ w.Receives self h tree ∧
        it.tree = h.tree ∧ it.version = tree.version) ∧
        ∀ x, it.next = some x → w.Reaches c it.tree it.version x) :
      Effect fuel w c v (w.extend handles iters)
  /-- An iterator yields a node. -/
  | next {ref : IterRef} {it : SExpIter} {current : NodeId} {tree : Tree} {node : Node}
      (hit : w.iters[ref]? = some it) (hnext : it.next = some current)
      (htree : w.trees[it.tree]? = some tree) (hversion : tree.version = it.version)
      (hnode : tree.nodes.get current = some node) :
      Effect fuel w (.next ref) (.sexp w.handles.length)
        ({ w with iters := w.iters.set ref { it with next := node.nextSibling } }.extend
          [⟨it.tree, current, it.version⟩] [])
  /-- A tree is created. -/
  | create {c : Call} {tree : Tree} (hc : c.removes = false) (hcreate : w.Creates fuel c tree) :
      Effect fuel w c (.sexp w.handles.length) (w.push tree)
  /-- The tree of the receiver is written. -/
  | write {c : Call} {v : Value} {self : HandleRef} {h : Handle} {tree tree' : Tree}
      (hc : c.self? = some self) (hself : w.Receives self h tree) (halloc : c.allocates = none)
      (hextract : ∀ self, c ≠ .extract self) (hwrite : w.Writes fuel h tree c tree') :
      Effect fuel w c v (w.refreshed self h tree')
  /-- A node is allocated, and a handle to it created. -/
  | alloc {c : Call} {self : HandleRef} {h : Handle} {tree tree' : Tree} {id : NodeId}
      {kind : NodeType} (hc : c.self? = some self) (hself : w.Receives self h tree)
      (halloc : c.allocates = some kind) (hallocated : tree.Allocated tree' id kind) :
      Effect fuel w c (.sexp w.handles.length)
        ((w.refreshed self h tree').extend [⟨h.tree, id, tree'.version⟩] [])
  /-- The node of the receiver is removed, and a tree created from it. -/
  | extract {self : HandleRef} {h : Handle} {tree tree₁ copy : Tree}
      (hself : w.Receives self h tree) (hne : h.node ≠ tree.root)
      (hclone : cloneSubtree fuel tree h.node = .ok copy)
      (hremove : Sexp.remove fuel tree h.node = .ok tree₁) :
      Effect fuel w (.extract self) (.sexp w.handles.length)
        ((w.refreshed self h tree₁.bumpVersion).push copy)

/-! ## Nodes that are reached by walking -/

namespace ChildIter

variable {tree : Tree} {iter iter' : ChildIter} {p c : NodeId} {fuel : Nat}

/-- What an iterator is about to yield is linked from a live node. -/
def Linked (iter : ChildIter) (tree : Tree) : Prop := ∀ x, iter.next = some x → tree.Linked x

/-- A new iterator starts at a linked node. -/
theorem new_linked (h : new tree p = .ok iter) : iter.Linked tree := by
  intro x hx
  obtain ⟨first, hfirst, hiter⟩ := Library.bind_eq_ok.mp h
  obtain ⟨n, hn, hfirst⟩ := Library.bind_eq_ok.mp hfirst
  cases hfirst
  cases hiter
  exact ⟨p, n, Slab.index_eq_ok.mp hn, by simp [Node.links, show n.firstChild = some x from hx]⟩

/-- What an iterator yields is the node it was about to yield, and it goes on with a linked node. -/
theorem step_linked (h : iter.step tree = .ok (some (c, iter'))) :
    iter.next = some c ∧ iter'.Linked tree := by
  unfold step at h
  split at h
  · cases h
  · rename_i current hcurrent
    obtain ⟨next, hnext, hiter⟩ := Library.bind_eq_ok.mp h
    obtain ⟨n, hn, hnext⟩ := Library.bind_eq_ok.mp hnext
    cases hnext
    cases hiter
    refine ⟨hcurrent, fun x hx => ?_⟩
    exact ⟨c, n, Slab.index_eq_ok.mp hn, by simp [Node.links, show n.nextSibling = some x from hx]⟩

/-- All nodes that are collected are linked. -/
theorem collect_linked {l : List NodeId} (hiter : iter.Linked tree)
    (h : iter.collect fuel tree = .ok l) : ∀ x ∈ l, tree.Linked x := by
  refine Library.iterate_invariant
    (fun s : ChildIter × List NodeId => s.1.Linked tree ∧ ∀ x ∈ s.2, tree.Linked x)
    (fun l => ∀ x ∈ l, tree.Linked x) ?_ ?_ ⟨hiter, by simp⟩ h
  · rintro ⟨it, seen⟩ s' ⟨hit, hseen⟩ hpass
    obtain ⟨_ | ⟨current, it'⟩, hstep, hpass⟩ := Library.bind_eq_ok.mp hpass
    · cases hpass
    · cases hpass
      obtain ⟨hcurrent, hit'⟩ := step_linked hstep
      exact ⟨hit', List.forall_mem_cons.mpr ⟨hit current hcurrent, hseen⟩⟩
  · rintro ⟨it, seen⟩ l ⟨hit, hseen⟩ hpass
    obtain ⟨_ | ⟨current, it'⟩, hstep, hpass⟩ := Library.bind_eq_ok.mp hpass
    · cases hpass
      exact fun x hx => hseen x (List.mem_reverse.mp hx)
    · cases hpass

/-- A node that is found is linked. -/
theorem find_linked {q : NodeId → Exec Bool} (hiter : iter.Linked tree)
    (h : iter.find fuel tree q = .ok (some c)) : tree.Linked c := by
  refine Library.iterate_invariant (fun it : ChildIter => it.Linked tree)
    (fun r => ∀ x, r = some x → tree.Linked x) ?_ ?_ hiter h c rfl
  · intro it s' hit hpass
    obtain ⟨_ | ⟨current, it'⟩, hstep, hpass⟩ := Library.bind_eq_ok.mp hpass
    · cases hpass
    · obtain ⟨found, -, hpass⟩ := Library.bind_eq_ok.mp hpass
      cases found
      · cases hpass
        exact (step_linked hstep).2
      · cases hpass
  · intro it r hit hpass x hx
    obtain ⟨_ | ⟨current, it'⟩, hstep, hpass⟩ := Library.bind_eq_ok.mp hpass
    · cases hpass
      cases hx
    · obtain ⟨found, -, hpass⟩ := Library.bind_eq_ok.mp hpass
      cases found
      · cases hpass
      · cases hpass
        cases hx
        exact hit _ (step_linked hstep).1

/-- The node at a position is linked. -/
theorem nth_linked {n : Nat} (hiter : iter.Linked tree)
    (h : iter.nth fuel tree n = .ok (some c)) : tree.Linked c := by
  refine Library.iterate_invariant (fun s : ChildIter × Nat => s.1.Linked tree)
    (fun r => ∀ x, r = some x → tree.Linked x) ?_ ?_ hiter h c rfl
  · rintro ⟨it, k⟩ s' hit hpass
    obtain ⟨_ | ⟨current, it'⟩, hstep, hpass⟩ := Library.bind_eq_ok.mp hpass
    · cases hpass
    · cases k
      · cases hpass
      · cases hpass
        exact (step_linked hstep).2
  · rintro ⟨it, k⟩ r hit hpass x hx
    obtain ⟨_ | ⟨current, it'⟩, hstep, hpass⟩ := Library.bind_eq_ok.mp hpass
    · cases hpass
      cases hx
    · cases k
      · cases hpass
        cases hx
        exact hit _ (step_linked hstep).1
      · cases hpass

end ChildIter

/-! ## The effect of every method -/

variable {fuel : Nat} {w w' : World} {self : HandleRef} {v : Value}

/-- A call that creates nothing is an observation. -/
theorem Effect.observe_nothing {c : Call} (hc : c.edits = false) : Effect fuel w c v w := by
  have h : Effect fuel w c v (w.extend [] []) := .observe hc (by simp) (by simp)
  rwa [World.extend, List.append_nil, List.append_nil] at h

/-- The handles that a reading method creates for the nodes that it has reached. -/
theorem Effect.observe_handles {c : Call} (hc : c.edits = false) (hself : c.self? = some self)
    {h : Handle} {tree : Tree} (hrec : w.Receives self h tree) {nodes : List NodeId}
    (hlinked : ∀ x ∈ nodes, tree.Linked x) :
    Effect fuel w c v (w.extend (nodes.map fun x => ⟨h.tree, x, tree.version⟩) []) := by
  refine .observe hc (fun h' hh' => ?_) (by simp)
  obtain ⟨x, hx, rfl⟩ := List.mem_map.mp hh'
  exact ⟨self, h, tree, hself, hrec, rfl, rfl, hlinked x hx⟩

/-- The iterator that a reading method creates at the node that it has reached. -/
theorem Effect.observe_iter {c : Call} (hc : c.edits = false) (hself : c.self? = some self)
    {h : Handle} {tree : Tree} (hrec : w.Receives self h tree) {next : Option NodeId}
    (hlinked : ∀ x, next = some x → tree.Linked x) :
    Effect fuel w c v (w.extend [] [⟨h.tree, next, tree.version⟩]) := by
  refine .observe hc (by simp) fun it hit => ?_
  obtain rfl := List.mem_singleton.mp hit
  exact ⟨⟨self, h, tree, hself, hrec, rfl, rfl⟩, fun x hx =>
    ⟨self, h, tree, hself, hrec, rfl, rfl, hlinked x hx⟩⟩

/-- The first child of a node is linked. -/
theorem Tree.firstChild_linked {tree : Tree} {p x : NodeId}
    (h : tree.firstChild p = .ok (some x)) : tree.Linked x := by
  obtain ⟨n, hn, hx⟩ := Library.bind_eq_ok.mp h
  have hfirst : n.firstChild = some x := Except.ok.inj hx
  exact ⟨p, n, Slab.index_eq_ok.mp hn, by simp [Node.links, hfirst]⟩

/-- The next sibling of a node is linked. -/
theorem Tree.nextSibling_linked {tree : Tree} {p x : NodeId}
    (h : tree.nextSibling p = .ok (some x)) : tree.Linked x := by
  obtain ⟨n, hn, hx⟩ := Library.bind_eq_ok.mp h
  have hnext : n.nextSibling = some x := Except.ok.inj hx
  exact ⟨p, n, Slab.index_eq_ok.mp hn, by simp [Node.links, hnext]⟩

/-- The parent of a node is linked. -/
theorem Tree.parent_linked {tree : Tree} {p x : NodeId}
    (h : tree.parent p = .ok (some x)) : tree.Linked x := by
  obtain ⟨n, hn, hx⟩ := Library.bind_eq_ok.mp h
  have hparent : n.parent = some x := Except.ok.inj hx
  exact ⟨p, n, Slab.index_eq_ok.mp hn, by simp [Node.links, hparent]⟩

/-- A method that only reads and returns leaves the objects alone. -/
theorem Effect.of_readOnly {α : Type} {c : Call} {x : PyM α} {g : α → Value}
    (hx : x.ReadOnly) (hc : c.edits = false) (h : (g <$> x) w = .ok (.ok v, w')) :
    Effect fuel w c v w' := by
  obtain ⟨a, hxw, -⟩ := PyM.map_eq_ok.mp h
  rw [hx _ _ _ hxw]
  exact .observe_nothing hc

namespace SExp

/-- Creating a handle in the tree of a receiver. -/
theorem share_apply {h : Handle} (hself : w.handles[self]? = some h) (node : NodeId)
    (version : UInt64) : share self node version w =
      .ok (.ok w.handles.length, w.extend [⟨h.tree, node, version⟩] []) := by
  unfold share
  rw [PyM.bind_of_ok (PyM.handle_apply hself)]
  simp [PyM.fromShared, World.extend]

/-- Creating handles in the tree of a receiver. -/
theorem shareAll_apply {h : Handle} (hself : w.handles[self]? = some h) (nodes : List NodeId)
    (version : UInt64) : shareAll self nodes version w =
      .ok (.ok ((List.range nodes.length).map (w.handles.length + ·)),
        w.extend (nodes.map fun x => ⟨h.tree, x, version⟩) []) := by
  unfold shareAll
  rw [PyM.bind_of_ok (PyM.handle_apply hself)]
  simp [PyM.fromSharedAll, World.extend]

/-- Creating an iterator in the tree of a receiver. -/
theorem shareIter_apply {h : Handle} (hself : w.handles[self]? = some h) (next : Option NodeId)
    (version : UInt64) : shareIter self next version w =
      .ok (.ok w.iters.length, w.extend [] [⟨h.tree, next, version⟩]) := by
  unfold shareIter
  rw [PyM.bind_of_ok (PyM.handle_apply hself)]
  simp [PyM.newIter, World.extend]

/-- **Reading the tree of the receiver and going on**: what is found comes with the version of the
tree, and the rest starts from the same objects. -/
theorem read_bind_ok {α β : Type} {f : Tree → NodeId → Exec (Except PyErr α)}
    {g : α × UInt64 → PyM β} {b : β}
    (h : (withTree self (versioned f) >>= g) w = .ok (.ok b, w')) :
    ∃ hd tree a, w.Receives self hd tree ∧ f tree hd.node = .ok (.ok a) ∧
      g (a, tree.version) w = .ok (.ok b, w') := by
  obtain ⟨p, _, hread, hrest⟩ := PyM.bind_eq_ok.mp h
  obtain ⟨rfl, hd, tree, hrec, hf⟩ := withTree_eq_ok.mp hread
  obtain ⟨_ | a, ha, hpure⟩ := Library.bind_eq_ok.mp hf
  · cases hpure
  · cases hpure
    exact ⟨hd, tree, a, hrec, ha, hrest⟩

variable {c : Call}

/-- **Reading a node and creating a handle to it.** -/
theorem share_effect {f : Tree → NodeId → Exec (Except PyErr NodeId)} {ref : HandleRef}
    (hc : c.edits = false) (hself : c.self? = some self)
    (hf : ∀ tree p x, f tree p = .ok (.ok x) → tree.Linked x)
    (h : (withTree self (versioned f) >>= fun p => share self p.1 p.2) w = .ok (.ok ref, w')) :
    Effect fuel w c v w' := by
  obtain ⟨hd, tree, x, hrec, hx, hshare⟩ := read_bind_ok h
  rw [share_apply hrec.handle_eq] at hshare
  cases hshare
  exact .observe_handles hc hself hrec (List.forall_mem_singleton.mpr (hf tree hd.node x hx))

/-- **Reading a node and creating an iterator at it.** -/
theorem shareIter_effect {f : Tree → NodeId → Exec (Except PyErr (Option NodeId))}
    {ref : IterRef} (hc : c.edits = false) (hself : c.self? = some self)
    (hf : ∀ tree p x, f tree p = .ok (.ok (some x)) → tree.Linked x)
    (h : (withTree self (versioned f) >>= fun p => shareIter self p.1 p.2) w =
      .ok (.ok ref, w')) : Effect fuel w c v w' := by
  obtain ⟨hd, tree, next, hrec, hnext, hshare⟩ := read_bind_ok h
  rw [shareIter_apply hrec.handle_eq] at hshare
  cases hshare
  exact .observe_iter hc hself hrec fun x hx => hf tree hd.node x (hx ▸ hnext)

/-- The effect of `repr`. -/
theorem repr_effect {text : String} (h : repr fuel self w = .ok (.ok text, w')) :
    Effect fuel w (.repr self) v w' := by
  unfold repr at h
  obtain ⟨hd, _, hself, hrest⟩ := PyM.bind_eq_ok.mp h
  obtain ⟨_, -, ⟨rfl⟩, rfl⟩ := PyM.handle_eq_ok.mp hself
  obtain ⟨tree, _, htree, hrest'⟩ := PyM.bind_eq_ok.mp hrest
  obtain ⟨_, -, ⟨rfl⟩, rfl⟩ := PyM.treeAt_eq_ok.mp htree
  split at hrest'
  · cases hrest'
  · obtain ⟨bare, _, hbare, hslow⟩ := PyM.bind_eq_ok.mp hrest'
    obtain ⟨_, -, ⟨rfl⟩, rfl⟩ := PyM.lift_eq_ok.mp hbare
    split at hslow
    · cases hslow
      exact .observe_nothing rfl
    · -- only a text that is not cached is written
      rcases hcached : tree.cachedRepr hd.node with _ | cached
      · rw [hcached] at hslow
        obtain ⟨h', tree', tree'', hrec, hf, rfl⟩ := withTreeMut_eq_ok.mp hslow
        obtain ⟨text, htext, hpure⟩ := Library.bind_eq_ok.mp hf
        cases hpure
        exact .write rfl hrec rfl (by simp) (.cache htext)
      · rw [hcached] at hslow
        cases hslow
        exact .observe_nothing rfl

/-- The child at an index is linked. -/
theorem childAt_linked {tree : Tree} {p x : NodeId} {index : Int}
    (h : childAt fuel tree p index = .ok (.ok x)) : tree.Linked x := by
  unfold childAt at h
  obtain ⟨n, -, h₁⟩ := Library.bind_eq_ok.mp h
  simp only at h₁
  split at h₁
  · cases h₁
  · obtain ⟨it, hit, h₂⟩ := Library.bind_eq_ok.mp h₁
    obtain ⟨_ | child, hchild, h₃⟩ := Library.bind_eq_ok.mp h₂
    · cases h₃
    · cases h₃
      exact ChildIter.nth_linked (ChildIter.new_linked hit) hchild

/-- The child for a string key is linked. -/
theorem childByKey_linked {tree : Tree} {p x : NodeId} {key : String}
    (h : childByKey fuel tree p key = .ok (.ok x)) : tree.Linked x := by
  unfold childByKey findChild at h
  obtain ⟨_ | child, hchild, h₁⟩ := Library.bind_eq_ok.mp h
  · cases h₁
  · cases h₁
    obtain ⟨it, hit, hfind⟩ := Library.bind_eq_ok.mp hchild
    exact ChildIter.find_linked (ChildIter.new_linked hit) hfind

/-- The children in a slice are linked. -/
theorem childrenAt_linked {tree : Tree} {p : NodeId} {key : PyKey} {xs : List NodeId}
    (h : childrenAt fuel tree p key = .ok (.ok xs)) : ∀ x ∈ xs, tree.Linked x := by
  unfold childrenAt at h
  obtain ⟨it, hit, h₁⟩ := Library.bind_eq_ok.mp h
  obtain ⟨children, hchildren, h₂⟩ := Library.bind_eq_ok.mp h₁
  cases key with
  | slice start stop step =>
      simp only at h₂
      split at h₂
      · cases h₂
      · cases h₂
        intro x hx
        obtain ⟨i, -, hi⟩ := List.mem_filterMap.mp hx
        exact ChildIter.collect_linked (ChildIter.new_linked hit) hchildren x
          (List.mem_of_getElem? hi)
  | int _ => cases h₂
  | str _ => cases h₂
  | object _ => cases h₂

/-- The effect of `[]`. -/
theorem getItem_effect {key : PyKey} {item : PyItem}
    (h : getItem fuel self key w = .ok (.ok item, w')) :
    Effect fuel w (.getItem self key) v w' := by
  -- one child, or a list of children
  have hone : ∀ {f}, (∀ tree p x, f tree p = .ok (.ok x) → tree.Linked x) →
      (withTree self (versioned f) >>= fun p => PyItem.sexp <$> share self p.1 p.2) w =
        .ok (.ok item, w') → Effect fuel w (.getItem self key) v w' := by
    intro f hf hcall
    obtain ⟨hd, tree, x, hrec, hx, hshare⟩ := read_bind_ok hcall
    obtain ⟨ref, hshare, -⟩ := PyM.map_eq_ok.mp hshare
    rw [share_apply hrec.handle_eq] at hshare
    cases hshare
    exact .observe_handles rfl rfl hrec (List.forall_mem_singleton.mpr (hf tree hd.node x hx))
  have hall : (withTree self (versioned fun tree node => childrenAt fuel tree node key) >>=
      fun p => PyItem.list <$> shareAll self p.1 p.2) w = .ok (.ok item, w') →
      Effect fuel w (.getItem self key) v w' := by
    intro hcall
    obtain ⟨hd, tree, xs, hrec, hxs, hshare⟩ := read_bind_ok hcall
    obtain ⟨refs, hshare, -⟩ := PyM.map_eq_ok.mp hshare
    rw [shareAll_apply hrec.handle_eq] at hshare
    cases hshare
    exact .observe_handles rfl rfl hrec (childrenAt_linked hxs)
  cases key with
  | int index =>
      rw [getItem] at h
      split at h
      · cases h
      · exact hone (fun _ _ _ => childAt_linked) h
  | str key => exact hone (fun _ _ _ => childByKey_linked) h
  | slice start stop step => exact hall h
  | object => exact hall h

/-- The effect of `self.parent`. -/
theorem parent_effect {p : Option HandleRef} (h : parent self w = .ok (.ok p, w')) :
    Effect fuel w (.parent self) v w' := by
  obtain ⟨hd, tree, q, hrec, hq, hshare⟩ := read_bind_ok h
  obtain ⟨_, hparent, hpure⟩ := Library.bind_eq_ok.mp hq
  cases hpure
  rcases q with _ | id
  · cases hshare
    exact .observe_nothing rfl
  · obtain ⟨ref, hshare, -⟩ := PyM.map_eq_ok.mp hshare
    rw [share_apply hrec.handle_eq] at hshare
    cases hshare
    exact .observe_handles rfl rfl hrec
      (List.forall_mem_singleton.mpr (Tree.parent_linked hparent))

/-- The second child of a node is linked. -/
theorem secondChild_linked {tree : Tree} {p x : NodeId}
    (h : secondChild tree p = .ok (some x)) : tree.Linked x := by
  unfold secondChild at h
  obtain ⟨_ | first, -, hnext⟩ := Library.bind_eq_ok.mp h
  · cases hnext
  · exact Tree.nextSibling_linked hnext

/-- The effect of assigning a value. -/
theorem setValue_effect {value : String} {u : Unit}
    (h : setValue self value w = .ok (.ok u, w')) : Effect fuel w (.setValue self value) v w' := by
  obtain ⟨hd, tree, tree', hrec, hf, rfl⟩ := withTreeMut_eq_ok.mp h
  obtain ⟨n, hn, h₁⟩ := Library.bind_eq_ok.mp hf
  split at h₁
  · cases h₁
  · rename_i hatom
    obtain ⟨nodes, hmodify, h₂⟩ := Library.bind_eq_ok.mp h₁
    obtain ⟨-, rfl⟩ := Slab.modify_eq_ok.mp hmodify
    cases h₂
    exact .write rfl hrec rfl (by simp) (.value (Slab.index_eq_ok.mp hn) (by simpa using hatom))

/-- The effect of allocating a node. -/
theorem alloc_effect {alloc : Tree → Exec (Tree × NodeId)} {kind : NodeType} {ref : HandleRef}
    (hc : c.allocates = some kind) (hself : c.self? = some self)
    (halloc : ∀ tree tree' id, alloc tree = .ok (tree', id) → tree.Allocated tree' id kind)
    (h : (do
      let (id, version) ← withTreeMut self fun tree _ => do
        let (tree, id) ← alloc tree
        return ((.ok (id, tree.version) : Except PyErr (NodeId × UInt64)), tree)
      share self id version) w = .ok (.ok ref, w')) :
    Effect fuel w c (.sexp ref) w' := by
  obtain ⟨⟨id, version⟩, w₁, hwrite, hshare⟩ := PyM.bind_eq_ok.mp h
  obtain ⟨hd, tree, tree', hrec, hf, rfl⟩ := withTreeMut_eq_ok.mp hwrite
  obtain ⟨⟨tree₁, id₁⟩, hok, hpure⟩ := Library.bind_eq_ok.mp hf
  cases hpure
  -- the receiver may have been refreshed, and still belongs to its tree
  have hhandle := World.handle_refreshed hrec.handle_eq tree'
  change share self id tree'.version _ = _ at hshare
  rw [share_apply hhandle, World.length_handles_refreshed] at hshare
  cases hshare
  have htree : (if tree'.containsNode hd.node then { hd with version := tree'.version }
      else hd).tree = hd.tree := by
    split <;> rfl
  rw [htree]
  exact .alloc hself hrec hc (halloc tree tree' id hok)

/-- Two handles that share their tree pass the check. -/
theorem assertSameTree_ok {t t' : Nat} {u : Unit} (h : assertSameTree t t' w = .ok (.ok u, w')) :
    t = t' ∧ w' = w := by
  unfold assertSameTree at h
  split at h
  · cases h
  · rename_i hne
    cases h
    exact ⟨not_not.mp hne, rfl⟩

/-- The receiver and the child of a call that attaches, which share their tree. -/
theorem sameTree_ok {α : Type} {child : HandleRef} {g : Handle → Handle → PyM α} {a : α}
    (h : (do
      let h ← PyM.handle self
      let c ← PyM.handle child
      assertSameTree h.tree c.tree
      g h c) w = .ok (.ok a, w')) :
    ∃ h c, w.handles[self]? = some h ∧ w.handles[child]? = some c ∧ h.tree = c.tree ∧
      g h c w = .ok (.ok a, w') := by
  obtain ⟨hd, _, hself, h₁⟩ := PyM.bind_eq_ok.mp h
  obtain ⟨_, hself', ⟨rfl⟩, rfl⟩ := PyM.handle_eq_ok.mp hself
  obtain ⟨cd, _, hchild, h₂⟩ := PyM.bind_eq_ok.mp h₁
  obtain ⟨_, hchild', ⟨rfl⟩, rfl⟩ := PyM.handle_eq_ok.mp hchild
  obtain ⟨_, _, hsame, h₃⟩ := PyM.bind_eq_ok.mp h₂
  obtain ⟨htree, rfl⟩ := assertSameTree_ok hsame
  exact ⟨hd, cd, hself', hchild', htree, h₃⟩

/-- The effect of attaching, once the checks have passed. -/
theorem attach_effect (op : Attachment) (child : NodeId) {u : Unit}
    (hc : c.self? = some self) (halloc : c.allocates = none) (hextract : ∀ self, c ≠ .extract self)
    {f : Tree → NodeId → Exec (Except PyErr Unit × Tree)}
    (hf : ∀ h tree tree', w.Receives self h tree → f tree h.node = .ok (.ok u, tree') →
      w.Attaching h tree c op child ∧ op.run fuel tree h.node child = .ok tree')
    (h : withTreeMut self f w = .ok (.ok u, w')) : Effect fuel w c v w' := by
  obtain ⟨hd, tree, tree', hrec, hok, rfl⟩ := withTreeMut_eq_ok.mp h
  obtain ⟨hop, hrun⟩ := hf hd tree tree' hrec hok
  exact .write hc hrec halloc hextract (.attach hop hrun)

/-- The effect of `append`. -/
theorem append_effect {child : HandleRef} {u : Unit}
    (h : append fuel self child w = .ok (.ok u, w')) : Effect fuel w (.append self child) v w' := by
  obtain ⟨hd, cd, hself, hchild, hsame, hwrite⟩ := sameTree_ok h
  refine attach_effect .append cd.node rfl rfl (by simp) ?_ hwrite
  intro h tree tree' hrec hok
  obtain rfl := Option.some.inj (hself.symm.trans hrec.handle_eq)
  obtain ⟨_, hrun, hpure⟩ := Library.bind_eq_ok.mp hok
  cases hpure
  exact ⟨.append hchild hsame, hrun⟩

/-- The effect of `prepend`. -/
theorem prepend_effect {child : HandleRef} {u : Unit}
    (h : prepend fuel self child w = .ok (.ok u, w')) :
    Effect fuel w (.prepend self child) v w' := by
  obtain ⟨hd, cd, hself, hchild, hsame, hwrite⟩ := sameTree_ok h
  refine attach_effect .prepend cd.node rfl rfl (by simp) ?_ hwrite
  intro h tree tree' hrec hok
  obtain rfl := Option.some.inj (hself.symm.trans hrec.handle_eq)
  obtain ⟨_, hrun, hpure⟩ := Library.bind_eq_ok.mp hok
  cases hpure
  exact ⟨.prepend hchild hsame, hrun⟩

/-- The effect of `insert_after`. -/
theorem insertAfter_effect {after : Option HandleRef} {child : HandleRef} {u : Unit}
    (h : insertAfter fuel self after child w = .ok (.ok u, w')) :
    Effect fuel w (.insertAfter self after child) v w' := by
  obtain ⟨hd, cd, hself, hchild, hsame, h₁⟩ := sameTree_ok h
  obtain ⟨a, _, hafter, hwrite⟩ := PyM.bind_eq_ok.mp h₁
  rcases after with _ | after
  · cases hafter
    refine attach_effect (.insertAfter none) cd.node rfl rfl (by simp) ?_ hwrite
    intro h tree tree' hrec hok
    obtain rfl := Option.some.inj (hself.symm.trans hrec.handle_eq)
    obtain ⟨_, hrun, hpure⟩ := Library.bind_eq_ok.mp hok
    cases hpure
    exact ⟨.insertFirst hchild hsame, hrun⟩
  · obtain ⟨ad, _, hget, h₂⟩ := PyM.bind_eq_ok.mp hafter
    obtain ⟨_, hget', ⟨rfl⟩, rfl⟩ := PyM.handle_eq_ok.mp hget
    obtain ⟨_, _, hcheck, h₃⟩ := PyM.bind_eq_ok.mp h₂
    obtain ⟨hsame', rfl⟩ := assertSameTree_ok hcheck
    cases h₃
    refine attach_effect (.insertAfter (some ad.node)) cd.node rfl rfl (by simp) ?_ hwrite
    intro h tree tree' hrec hok
    obtain rfl := Option.some.inj (hself.symm.trans hrec.handle_eq)
    -- a stale sibling raises after the check of the receiver
    split at hok
    · cases hok
    · rename_i hfresh
      obtain ⟨_, hrun, hpure⟩ := Library.bind_eq_ok.mp hok
      cases hpure
      exact ⟨.insertBehind hchild hsame hget' hsame' (by simpa using hfresh), hrun⟩

/-- The effect of `remove`. -/
theorem remove_effect {u : Unit} (h : remove fuel self w = .ok (.ok u, w')) :
    Effect fuel w (.remove self) v w' := by
  obtain ⟨hd, tree, tree', hrec, hok, rfl⟩ := withTreeMut_eq_ok.mp h
  split at hok
  · cases hok
  · rename_i hne
    obtain ⟨tree₁, hremove, hpure⟩ := Library.bind_eq_ok.mp hok
    cases hpure
    exact .write rfl hrec rfl (by simp) (.remove rfl hne hremove)

/-- The effect of `extract`. -/
theorem extract_effect {ref : HandleRef} (h : extract fuel self w = .ok (.ok ref, w')) :
    Effect fuel w (.extract self) (.sexp ref) w' := by
  obtain ⟨newTree, w₁, hwrite, hpush⟩ := PyM.bind_eq_ok.mp h
  obtain ⟨hd, tree, tree', hrec, hok, rfl⟩ := withTreeMut_eq_ok.mp hwrite
  split at hok
  · cases hok
  · rename_i hne
    obtain ⟨⟨tree₁, copy⟩, hextract, hpure⟩ := Library.bind_eq_ok.mp hok
    cases hpure
    obtain ⟨copy', hclone, hrest⟩ := Library.bind_eq_ok.mp hextract
    rw [if_neg hne] at hrest
    obtain ⟨tree₂, hremove, hpure⟩ := Library.bind_eq_ok.mp hrest
    cases hpure
    cases hpush
    rw [World.length_handles_refreshed]
    exact .extract hrec hne hclone hremove

/-- The effect of `clone`. -/
theorem cloneNode_effect {ref : HandleRef} (h : cloneNode fuel self w = .ok (.ok ref, w')) :
    Effect fuel w (.clone self) (.sexp ref) w' := by
  obtain ⟨newTree, w₁, hread, hpush⟩ := PyM.bind_eq_ok.mp h
  obtain ⟨rfl, hd, tree, hrec, hok⟩ := withTree_eq_ok.mp hread
  obtain ⟨copy, hclone, hpure⟩ := Library.bind_eq_ok.mp hok
  cases hpure
  cases hpush
  exact .create rfl (.clone hrec hclone)

end SExp

/-- The effect of `parse`. -/
theorem pyParse_effect {source : PySource} {ref : HandleRef}
    (h : pyParse fuel source w = .ok (.ok ref, w')) :
    Effect fuel w (.parse source) (.sexp ref) w' := by
  obtain ⟨parsed, w₁, hread, hpush⟩ := PyM.bind_eq_ok.mp h
  rcases parsed with error | tree
  · cases hpush
  · cases source with
    | str s =>
        obtain ⟨_, hparse, ⟨rfl⟩, rfl⟩ := PyM.lift_eq_ok.mp hread
        cases hpush
        exact .create rfl (.parse rfl hparse)
    | bytes b =>
        obtain ⟨_, hparse, ⟨rfl⟩, rfl⟩ := PyM.lift_eq_ok.mp hread
        cases hpush
        rw [parseBytes] at hparse
        rcases htext : String.fromUTF8? b with _ | s
        · rw [htext] at hparse
          cases hparse
        · rw [htext] at hparse
          exact .create rfl (.parse htext hparse)
    | object => cases hread

/-- The effect of `SExp()`. -/
theorem newEmpty_effect {ref : HandleRef} (h : SExp.newEmpty w = .ok (.ok ref, w')) :
    Effect fuel w .new (.sexp ref) w' := by
  obtain ⟨tree, w₁, hlift, hpush⟩ := PyM.bind_eq_ok.mp h
  obtain ⟨_, hnew, ⟨rfl⟩, rfl⟩ := PyM.lift_eq_ok.mp hlift
  cases hpush
  exact .create rfl (.new hnew)

/-- The effect of advancing an iterator. -/
theorem step_effect {it : IterRef} {p : Option HandleRef}
    (h : SExpIter.step it w = .ok (.ok p, w')) :
    Effect fuel w (.next it) (Value.ofHandle p) w' := by
  unfold SExpIter.step at h
  obtain ⟨state, _, hiter, h₁⟩ := PyM.bind_eq_ok.mp h
  obtain ⟨_, hit, ⟨rfl⟩, rfl⟩ := PyM.iter_eq_ok.mp hiter
  rcases hnext : state.next with _ | current
  · rw [hnext] at h₁
    cases h₁
    exact .observe_nothing rfl
  · rw [hnext] at h₁
    obtain ⟨tree, _, htree, h₂⟩ := PyM.bind_eq_ok.mp h₁
    obtain ⟨_, htree', ⟨rfl⟩, rfl⟩ := PyM.treeAt_eq_ok.mp htree
    split at h₂
    · cases h₂
    · rename_i hversion
      obtain ⟨node, _, hget, h₃⟩ := PyM.bind_eq_ok.mp h₂
      obtain ⟨_, hnode, ⟨rfl⟩, rfl⟩ := PyM.lift_eq_ok.mp hget
      obtain ⟨_, _, hset, h₄⟩ := PyM.bind_eq_ok.mp h₃
      cases hset
      obtain ⟨ref, hshare, rfl⟩ := PyM.map_eq_ok.mp h₄
      cases hshare
      have hyield : Effect fuel _ (.next it) _ _ :=
        .next hit hnext htree' (not_not.mp hversion) (Slab.index_eq_ok.mp hnode)
      change Effect fuel _ (.next it) (.sexp _) _
      simpa only [World.extend, List.append_nil] using hyield

/-- **The effect of every call that returns.** -/
theorem call_effect {c : Call} (h : call fuel c w = .ok (.ok v, w')) : Effect fuel w c v w' := by
  cases c with
  | parse source =>
      obtain ⟨ref, href, rfl⟩ := PyM.map_eq_ok.mp h
      exact pyParse_effect href
  | new =>
      obtain ⟨ref, href, rfl⟩ := PyM.map_eq_ok.mp h
      exact newEmpty_effect href
  | repr self =>
      obtain ⟨text, htext, -⟩ := PyM.map_eq_ok.mp h
      exact SExp.repr_effect htext
  | len self => exact .of_readOnly SExp.withTree_readOnly rfl h
  | eq self o => exact .of_readOnly (SExp.eq_readOnly fuel self o) rfl h
  | contains self item => exact .of_readOnly (SExp.contains_readOnly fuel self item) rfl h
  | getItem self key =>
      obtain ⟨item, hitem, -⟩ := PyM.map_eq_ok.mp h
      exact SExp.getItem_effect hitem
  | iter self =>
      obtain ⟨ref, href, -⟩ := PyM.map_eq_ok.mp h
      refine SExp.shareIter_effect rfl rfl (fun tree p x hx => ?_) href
      obtain ⟨_, hfirst, hpure⟩ := Library.bind_eq_ok.mp hx
      cases hpure
      exact Tree.firstChild_linked hfirst
  | next it =>
      obtain ⟨p, hp, rfl⟩ := PyM.map_eq_ok.mp h
      exact step_effect hp
  | head self =>
      obtain ⟨ref, href, -⟩ := PyM.map_eq_ok.mp h
      refine SExp.share_effect rfl rfl (fun tree p x hx => ?_) href
      obtain ⟨_ | first, hfirst, hpure⟩ := Library.bind_eq_ok.mp hx
      · cases hpure
      · cases hpure
        exact Tree.firstChild_linked hfirst
  | tail self =>
      obtain ⟨ref, href, -⟩ := PyM.map_eq_ok.mp h
      refine SExp.shareIter_effect rfl rfl (fun tree p x hx => ?_) href
      obtain ⟨_, hsecond, hpure⟩ := Library.bind_eq_ok.mp hx
      cases hpure
      exact SExp.secondChild_linked hsecond
  | isAtom self => exact .of_readOnly SExp.withTree_readOnly rfl h
  | value self => exact .of_readOnly SExp.withTree_readOnly rfl h
  | setValue self text =>
      obtain ⟨u, hu, -⟩ := PyM.map_eq_ok.mp h
      exact SExp.setValue_effect hu
  | parent self =>
      obtain ⟨p, hp, -⟩ := PyM.map_eq_ok.mp h
      exact SExp.parent_effect hp
  | newAtom self text =>
      obtain ⟨ref, href, rfl⟩ := PyM.map_eq_ok.mp h
      exact SExp.alloc_effect rfl rfl (fun _ _ _ => allocAtom_ok) href
  | newList self =>
      obtain ⟨ref, href, rfl⟩ := PyM.map_eq_ok.mp h
      exact SExp.alloc_effect rfl rfl (fun _ _ _ => allocList_ok) href
  | append self child =>
      obtain ⟨u, hu, -⟩ := PyM.map_eq_ok.mp h
      exact SExp.append_effect hu
  | prepend self child =>
      obtain ⟨u, hu, -⟩ := PyM.map_eq_ok.mp h
      exact SExp.prepend_effect hu
  | insertAfter self after child =>
      obtain ⟨u, hu, -⟩ := PyM.map_eq_ok.mp h
      exact SExp.insertAfter_effect hu
  | remove self =>
      obtain ⟨u, hu, -⟩ := PyM.map_eq_ok.mp h
      exact SExp.remove_effect hu
  | clone self =>
      obtain ⟨ref, href, rfl⟩ := PyM.map_eq_ok.mp h
      exact SExp.cloneNode_effect href
  | extract self =>
      obtain ⟨ref, href, rfl⟩ := PyM.map_eq_ok.mp h
      exact SExp.extract_effect href

end Sexp
