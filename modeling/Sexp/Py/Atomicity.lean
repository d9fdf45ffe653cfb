import Sexp.Py.Api

/-! # Receivers, and calls that raise

A method reads or writes the tree of its receiver, unless the receiver is stale: what it then does
is what its code does on the tree (`withTree_eq_ok`, `withTreeMut_eq_ok`). A call that raises leaves
the objects as they are (`call_atomic`). -/

namespace Sexp

/-! ## Receivers -/

/-- **A receiver**: `ref` names the handle `h`, whose tree is `tree`. -/
structure World.Receives (w : World) (ref : HandleRef) (h : Handle) (tree : Tree) : Prop where
  /-- The handle. -/
  handle_eq : w.handles[ref]? = some h
  /-- Its tree. -/
  tree_eq : w.trees[h.tree]? = some tree
  /-- The handle is not stale. -/
  fresh : h.isStale tree = false

/-- The world after the tree of a receiver has been written, and the receiver refreshed. -/
def World.refreshed (w : World) (self : HandleRef) (h : Handle) (tree : Tree) : World where
  trees := w.trees.set h.tree tree
  handles :=
    if tree.containsNode h.node then w.handles.set self { h with version := tree.version }
    else w.handles
  iters := w.iters

/-- Refreshing creates no handle. -/
@[simp] theorem World.length_handles_refreshed (w : World) (self : HandleRef) (h : Handle)
    (tree : Tree) : (w.refreshed self h tree).handles.length = w.handles.length := by
  unfold World.refreshed
  split <;> simp

/-- A refreshed receiver still belongs to its tree. -/
theorem World.handle_refreshed {w : World} {self : HandleRef} {h : Handle}
    (hself : w.handles[self]? = some h) (tree : Tree) :
    (w.refreshed self h tree).handles[self]? =
      some (if tree.containsNode h.node then { h with version := tree.version } else h) := by
  have hlt : self < w.handles.length := (List.getElem?_eq_some_iff.mp hself).1
  unfold World.refreshed
  split
  · rw [List.getElem?_set_self hlt]
  · exact hself

namespace SExp

variable {α : Type} {w w' : World} {self child after : HandleRef} {h x a : Handle} {tree : Tree}
  {e : PyErr}

/-- **A method that looks up its receiver** goes on with the handle and its tree. -/
theorem receiver_apply (hrec : w.Receives self h tree) (g : Handle → Tree → PyM α) :
    (do
      let h ← PyM.handle self
      let tree ← PyM.treeAt h.tree
      if h.isStale tree then PyM.raise staleError else g h tree) w = g h tree w := by
  rw [PyM.bind_of_ok (PyM.handle_apply hrec.handle_eq),
    PyM.bind_of_ok (PyM.treeAt_apply hrec.tree_eq), hrec.fresh,
    if_neg Bool.false_ne_true]

/-- **A method that looks up a stale receiver** raises. -/
theorem receiver_of_stale (hself : w.handles[self]? = some h)
    (htree : w.trees[h.tree]? = some tree) (hstale : h.isStale tree = true)
    (g : Handle → Tree → PyM α) :
    (do
      let h ← PyM.handle self
      let tree ← PyM.treeAt h.tree
      if h.isStale tree then PyM.raise staleError else g h tree) w =
      .ok (.error staleError, w) := by
  rw [PyM.bind_of_ok (PyM.handle_apply hself),
    PyM.bind_of_ok (PyM.treeAt_apply htree), if_pos hstale]
  rfl

section WithTree

variable {f : Tree → NodeId → Exec (Except PyErr α)} {b : α}

/-- A method that reads its tree only reads. -/
theorem withTree_readOnly : (withTree self f).ReadOnly := by
  unfold withTree
  refine .bind (PyM.readOnly_handle self) fun h => .bind (PyM.readOnly_treeAt h.tree) fun tree => ?_
  split
  · exact PyM.readOnly_raise _
  · exact .bind (PyM.readOnly_lift _) fun result => PyM.readOnly_ofExcept result

/-- **When a method that reads its tree returns.** -/
theorem withTree_eq_ok : withTree self f w = .ok (.ok b, w') ↔
    w' = w ∧ ∃ h tree, w.Receives self h tree ∧ f tree h.node = .ok (.ok b) := by
  unfold withTree
  simp only [PyM.bind_eq_ok, PyM.handle_eq_ok, PyM.treeAt_eq_ok]
  constructor
  · rintro ⟨h, _, ⟨_, hself, ⟨rfl⟩, rfl⟩, tree, _, ⟨_, htree, ⟨rfl⟩, rfl⟩, hrest⟩
    rcases hstale : h.isStale tree
    · rw [hstale, if_neg Bool.false_ne_true] at hrest
      obtain ⟨result, _, hlift, hresult⟩ := PyM.bind_eq_ok.mp hrest
      obtain ⟨_, hf, ⟨rfl⟩, rfl⟩ := PyM.lift_eq_ok.mp hlift
      cases hresult
      exact ⟨rfl, h, tree, ⟨hself, htree, hstale⟩, hf⟩
    · rw [hstale, if_pos rfl] at hrest
      cases hrest
  · rintro ⟨rfl, h, tree, ⟨hself, htree, hstale⟩, hf⟩
    refine ⟨h, _, ⟨h, hself, rfl, rfl⟩, tree, _, ⟨tree, htree, rfl, rfl⟩, ?_⟩
    rw [hstale, if_neg Bool.false_ne_true, PyM.bind_eq_ok]
    exact ⟨_, _, PyM.lift_eq_ok.mpr ⟨_, hf, rfl, rfl⟩, rfl⟩

end WithTree

section WithTreeMut

variable {f : Tree → NodeId → Exec (Except PyErr α × Tree)} {b : α}

/-- Refreshing a receiver never raises. -/
theorem refresh_apply (h : Handle) (tree : Tree) (w : World) :
    refresh self h tree w = .ok (.ok (),
      { w with
        handles :=
          if tree.containsNode h.node then w.handles.set self { h with version := tree.version }
          else w.handles }) := by
  unfold refresh
  split <;> rfl

/-- **When a method that writes its tree returns.** -/
theorem withTreeMut_eq_ok : withTreeMut self f w = .ok (.ok b, w') ↔
    ∃ h tree tree', w.Receives self h tree ∧ f tree h.node = .ok (.ok b, tree') ∧
      w' = w.refreshed self h tree' := by
  unfold withTreeMut
  simp only [PyM.bind_eq_ok, PyM.handle_eq_ok, PyM.treeAt_eq_ok]
  constructor
  · rintro ⟨h, _, ⟨_, hself, ⟨rfl⟩, rfl⟩, tree, _, ⟨_, htree, ⟨rfl⟩, rfl⟩, hrest⟩
    rcases hstale : h.isStale tree
    · rw [hstale, if_neg Bool.false_ne_true] at hrest
      -- the tree is written back before the result is looked at
      obtain ⟨⟨result, tree'⟩, _, hlift, hwrite⟩ := PyM.bind_eq_ok.mp hrest
      obtain ⟨_, hf, ⟨rfl⟩, rfl⟩ := PyM.lift_eq_ok.mp hlift
      obtain ⟨_, _, hset, hresult⟩ := PyM.bind_eq_ok.mp hwrite
      cases hset
      obtain ⟨a', _, hok, hrefresh⟩ := PyM.bind_eq_ok.mp hresult
      cases hok
      rw [PyM.bind_of_ok (refresh_apply h tree' _)] at hrefresh
      cases hrefresh
      exact ⟨h, tree, tree', ⟨hself, htree, hstale⟩, hf, rfl⟩
    · rw [hstale, if_pos rfl] at hrest
      cases hrest
  · rintro ⟨h, tree, tree', ⟨hself, htree, hstale⟩, hf, rfl⟩
    refine ⟨h, _, ⟨h, hself, rfl, rfl⟩, tree, _, ⟨tree, htree, rfl, rfl⟩, ?_⟩
    rw [hstale, if_neg Bool.false_ne_true,
      PyM.bind_of_ok (PyM.lift_eq_ok.mpr ⟨_, hf, rfl, rfl⟩)]
    change (PyM.ofExcept (.ok b) >>= fun b => refresh self h tree' >>= fun _ => pure b) _ = _
    rw [PyM.bind_of_ok rfl, PyM.bind_of_ok (refresh_apply h tree' _)]
    rfl

/-- Writing back the tree that is there changes nothing. -/
theorem setTree_self {t : Nat} {tree : Tree} (h : w.trees[t]? = some tree) :
    ({ w with trees := w.trees.set t tree } : World) = w := by
  obtain ⟨hlt, rfl⟩ := List.getElem?_eq_some_iff.mp h
  rw [List.set_getElem_self]

/-- A method whose code leaves the tree alone when it raises is failure-atomic. -/
theorem withTreeMut_atomic
    (hf : ∀ tree node e tree', f tree node = .ok (.error e, tree') → tree' = tree) :
    (withTreeMut self f).Atomic := by
  unfold withTreeMut
  refine .bind (PyM.readOnly_handle self) fun h => ?_
  intro w e w' hraise
  rcases PyM.bind_eq_error.mp hraise with hread | ⟨tree, _, hread, hrest⟩
  · exact PyM.readOnly_treeAt _ _ _ _ hread
  obtain ⟨_, htree, ⟨rfl⟩, rfl⟩ := PyM.treeAt_eq_ok.mp hread
  split at hrest
  · exact PyM.readOnly_raise _ _ _ _ hrest
  · rcases PyM.bind_eq_error.mp hrest with hlift | ⟨⟨result, tree'⟩, _, hlift, hwrite⟩
    · exact PyM.readOnly_lift _ _ _ _ hlift
    · obtain ⟨_, hfok, ⟨rfl⟩, rfl⟩ := PyM.lift_eq_ok.mp hlift
      rcases result with e' | a
      · -- the tree is written back unchanged
        obtain rfl : tree' = tree := hf _ _ _ _ hfok
        cases hwrite
        exact setTree_self htree
      · exfalso
        change (PyM.ofExcept (.ok a) >>= fun a => refresh self h tree' >>= fun _ => pure a) _ = _
          at hwrite
        rw [PyM.bind_of_ok rfl, PyM.bind_of_ok (refresh_apply h tree' _)] at hwrite
        cases hwrite

/-- **What a method does that writes the tree of a receiver.** -/
theorem withTreeMut_apply (hrec : w.Receives self h tree) : withTreeMut self f w = (do
    match ← f tree h.node with
    | (.ok a, tree') => return (.ok a, w.refreshed self h tree')
    | (.error e, tree') => return (.error e, { w with trees := w.trees.set h.tree tree' })) := by
  unfold withTreeMut
  rw [receiver_apply hrec]
  rcases f tree h.node with fault | ⟨e | a, tree'⟩
  · rw [PyM.bind_of_fault rfl]
    rfl
  · rw [PyM.bind_of_ok rfl]
    rfl
  · rw [PyM.bind_of_ok rfl]
    change (PyM.setTree h.tree tree' >>= fun _ => PyM.ofExcept (.ok a) >>= fun a =>
      refresh self h tree' >>= fun _ => pure a) w = _
    rw [PyM.bind_of_ok rfl, PyM.bind_of_ok rfl, PyM.bind_of_ok (refresh_apply h tree' _)]
    rfl

/-- A method that writes its tree raises when the receiver is stale. -/
theorem withTreeMut_of_stale (hself : w.handles[self]? = some h)
    (htree : w.trees[h.tree]? = some tree) (hstale : h.isStale tree = true) :
    withTreeMut self f w = .ok (.error staleError, w) :=
  receiver_of_stale hself htree hstale _

/-- What a method raises that writes its tree, when its code raises and leaves the tree alone. -/
theorem withTreeMut_of_error (hself : w.handles[self]? = some h)
    (htree : w.trees[h.tree]? = some tree) (hfresh : h.isStale tree = false)
    (hf : f tree h.node = .ok (.error e, tree)) :
    withTreeMut self f w = .ok (.error e, w) := by
  unfold withTreeMut
  rw [PyM.bind_of_ok (PyM.handle_apply hself), PyM.bind_of_ok (PyM.treeAt_apply htree), hfresh,
    if_neg Bool.false_ne_true, PyM.bind_of_ok (PyM.lift_eq_ok.mpr ⟨_, hf, rfl, rfl⟩)]
  change Except.ok (Except.error e, ({ w with trees := w.trees.set h.tree tree } : World)) = _
  rw [setTree_self htree]

/-- A method that writes its tree and raises has raised in its code, unless the receiver is
stale. -/
theorem error_of_withTreeMut (hself : w.handles[self]? = some h)
    (htree : w.trees[h.tree]? = some tree) (hfresh : h.isStale tree = false)
    (hraise : withTreeMut self f w = .ok (.error e, w')) :
    ∃ tree', f tree h.node = .ok (.error e, tree') := by
  unfold withTreeMut at hraise
  rw [PyM.bind_of_ok (PyM.handle_apply hself), PyM.bind_of_ok (PyM.treeAt_apply htree), hfresh,
    if_neg Bool.false_ne_true] at hraise
  rcases PyM.bind_eq_error.mp hraise with hlift | ⟨⟨result, tree'⟩, w₁, hlift, hrest⟩
  · obtain ⟨_, -, hr, -⟩ := PyM.lift_eq_ok.mp hlift
    cases hr
  · obtain ⟨_, hfok, ⟨rfl⟩, rfl⟩ := PyM.lift_eq_ok.mp hlift
    rcases result with e' | b
    · cases hrest
      exact ⟨tree', hfok⟩
    · -- the code has returned, and what follows does not raise
      exfalso
      change (PyM.ofExcept (.ok b) >>= fun b => refresh self h tree' >>= fun _ => pure b) _ = _
        at hrest
      rw [PyM.bind_of_ok rfl, PyM.bind_of_ok (refresh_apply h tree' _)] at hrest
      cases hrest

end WithTreeMut

/-- The check that two trees are the same passes. -/
theorem assertSameTree_pass {t t' : Nat} (h : t = t') (w : World) :
    assertSameTree t t' w = .ok (.ok (), w) := by
  rw [assertSameTree, if_neg (not_not.mpr h)]
  rfl

/-- The check that two trees are the same raises. -/
theorem assertSameTree_raise {t t' : Nat} (h : t ≠ t') (w : World) : assertSameTree t t' w =
    .ok (.error (.valueError "node belongs to a different tree"), w) := by
  rw [assertSameTree, if_pos h]
  rfl

/-- Two handles of the same tree pass the check. -/
theorem sameTree_apply (hself : w.handles[self]? = some h) (hchild : w.handles[child]? = some x)
    (hsame : h.tree = x.tree) (g : Handle → Handle → PyM α) :
    (do
      let h ← PyM.handle self
      let c ← PyM.handle child
      assertSameTree h.tree c.tree
      g h c) w = g h x w := by
  rw [PyM.bind_of_ok (PyM.handle_apply hself), PyM.bind_of_ok (PyM.handle_apply hchild),
    PyM.bind_of_ok (assertSameTree_pass hsame w)]

/-- A sibling of the same tree passes the check. -/
theorem afterHandle_apply (ha : w.handles[after]? = some a) (hsame : h.tree = a.tree) :
    afterHandle h.tree (some after) w = .ok (.ok (some a), w) := by
  rw [afterHandle, PyM.bind_of_ok (PyM.handle_apply ha),
    PyM.bind_of_ok (assertSameTree_pass hsame w)]
  rfl

/-- A sibling of another tree does not pass the check. -/
theorem afterHandle_raise (ha : w.handles[after]? = some a) (hother : h.tree ≠ a.tree) :
    afterHandle h.tree (some after) w =
      .ok (.error (.valueError "node belongs to a different tree"), w) := by
  rw [afterHandle, PyM.bind_of_ok (PyM.handle_apply ha),
    PyM.bind_of_error (assertSameTree_raise hother w)]

end SExp

/-! ## Raising leaves the objects as they are -/

/-- Code that only returns a tree does not raise. -/
theorem returns_ne_error {x : Exec Tree} {e : PyErr} {tree' : Tree} :
    (do return ((.ok () : Except PyErr Unit), ← x) : Exec (Except PyErr Unit × Tree)) ≠
      .ok (.error e, tree') := by
  intro hraise
  obtain ⟨t, -, hpure⟩ := Library.bind_eq_ok.mp hraise
  cases hpure

/-- `parse` is failure-atomic. -/
theorem pyParse_atomic (fuel : Nat) (source : PySource) : (pyParse fuel source).Atomic := by
  have hparsed : (parseSource fuel source).ReadOnly := by
    cases source with
    | str s => exact PyM.readOnly_lift _
    | bytes b => exact PyM.readOnly_lift _
    | object => exact PyM.readOnly_raise _
  refine .bind hparsed fun parsed => ?_
  rcases parsed with error | tree
  · exact (PyM.readOnly_raise _).atomic
  · exact (PyM.quiet_fromTree tree).atomic

namespace SExp

variable (fuel : Nat) (self : HandleRef)

/-- Creating a handle never raises. -/
theorem share_quiet (node : NodeId) (version : UInt64) : (share self node version).Quiet :=
  .bind (PyM.quiet_handle self) fun _ => PyM.quiet_fromShared _ _ _

/-- Creating handles never raises. -/
theorem shareAll_quiet (nodes : List NodeId) (version : UInt64) :
    (shareAll self nodes version).Quiet :=
  .bind (PyM.quiet_handle self) fun _ => PyM.quiet_fromSharedAll _ _ _

/-- Creating an iterator never raises. -/
theorem shareIter_quiet (next : Option NodeId) (version : UInt64) :
    (shareIter self next version).Quiet :=
  .bind (PyM.quiet_handle self) fun _ => PyM.quiet_newIter _ _ _

/-- Reading a tree and then creating objects is failure-atomic. -/
theorem withTree_atomic {α β : Type} {f : Tree → NodeId → Exec (Except PyErr α)}
    {g : α → PyM β} (hg : ∀ a, (g a).Quiet) : (withTree self f >>= g).Atomic :=
  .bind withTree_readOnly fun a => (hg a).atomic

/-- `repr` is failure-atomic. -/
theorem repr_atomic : (repr fuel self).Atomic := by
  unfold repr
  refine .bind (PyM.readOnly_handle self) fun h => .bind (PyM.readOnly_treeAt h.tree) fun tree => ?_
  split
  · exact (PyM.readOnly_raise _).atomic
  · refine .bind (PyM.readOnly_lift _) fun bare => ?_
    split
    · exact (PyM.readOnly_pure _).atomic
    · split
      · exact (PyM.readOnly_pure _).atomic
      · refine withTreeMut_atomic fun tree node e tree' h => ?_
        obtain ⟨text, -, hpure⟩ := Library.bind_eq_ok.mp h
        cases hpure

/-- `==` only reads. -/
theorem eq_readOnly (other : PyArg) : (eq fuel self other).ReadOnly := by
  cases other with
  | sexp other =>
      unfold eq
      refine .bind (PyM.readOnly_handle self) fun h => .bind (PyM.readOnly_handle other) fun o => ?_
      split
      · refine .bind (PyM.readOnly_treeAt _) fun tree => ?_
        split
        · exact PyM.readOnly_raise _
        · exact PyM.readOnly_lift _
      · refine .bind (PyM.readOnly_treeAt _) fun tree => ?_
        split
        · exact PyM.readOnly_raise _
        · refine .bind (PyM.readOnly_treeAt _) fun tree' => ?_
          split
          · exact PyM.readOnly_raise _
          · exact PyM.readOnly_lift _
  | str value => exact PyM.readOnly_pure false
  | object => exact PyM.readOnly_pure false

/-- `in` only reads. -/
theorem contains_readOnly (item : PyArg) : (contains fuel self item).ReadOnly := by
  unfold contains
  refine .bind (PyM.readOnly_handle self) fun h => .bind (PyM.readOnly_treeAt _) fun tree => ?_
  split
  · exact PyM.readOnly_raise _
  · cases item with
    | sexp other =>
        refine .bind (PyM.readOnly_handle other) fun o => ?_
        split
        · exact PyM.readOnly_pure _
        · split
          · exact PyM.readOnly_raise _
          · exact .bind (PyM.readOnly_lift _) fun _ => PyM.readOnly_pure _
    | str value => exact .bind (PyM.readOnly_lift _) fun _ => PyM.readOnly_pure _
    | object => exact PyM.readOnly_pure _

/-- `[]` is failure-atomic. -/
theorem getItem_atomic (key : PyKey) : (getItem fuel self key).Atomic := by
  cases key with
  | int index =>
      rw [getItem]
      split
      · exact (PyM.readOnly_raise _).atomic
      · exact withTree_atomic self fun _ => (share_quiet self _ _).map
  | str key => exact withTree_atomic self fun _ => (share_quiet self _ _).map
  | slice start stop step => exact withTree_atomic self fun _ => (shareAll_quiet self _ _).map
  | object typeName => exact withTree_atomic self fun _ => (shareAll_quiet self _ _).map

/-- `self.parent` is failure-atomic. -/
theorem parent_atomic : (parent self).Atomic := by
  refine withTree_atomic self fun p => ?_
  obtain ⟨_ | id, version⟩ := p
  · exact PyM.quiet_pure _
  · exact (share_quiet self _ _).map

/-- Writing a value is failure-atomic. -/
theorem setValue_atomic (value : String) : (setValue self value).Atomic := by
  refine withTreeMut_atomic fun tree node e tree' h => ?_
  obtain ⟨n, -, h⟩ := Library.bind_eq_ok.mp h
  split at h
  · cases h
    rfl
  · obtain ⟨nodes, -, h⟩ := Library.bind_eq_ok.mp h
    cases h

/-- The check that two handles share their tree only reads. -/
theorem assertSameTree_readOnly (t t' : Nat) : (assertSameTree t t').ReadOnly := by
  unfold assertSameTree
  split
  · exact PyM.readOnly_raise _
  · exact PyM.readOnly_pure _

/-- Looking up an optional argument only reads. -/
theorem afterHandle_readOnly (t : Nat) (after : Option HandleRef) :
    (afterHandle t after).ReadOnly := by
  cases after with
  | none => exact PyM.readOnly_pure _
  | some after =>
      exact .bind (PyM.readOnly_handle after) fun a =>
        .bind (assertSameTree_readOnly _ _) fun _ => PyM.readOnly_pure _

/-- Code that attaches and never raises is failure-atomic. -/
theorem attach_atomic (op : Tree → NodeId → Exec Tree) :
    (withTreeMut self fun tree node => do
      return ((.ok () : Except PyErr Unit), ← op tree node)).Atomic := by
  refine withTreeMut_atomic fun tree node e tree' h => ?_
  obtain ⟨tree₁, -, h⟩ := Library.bind_eq_ok.mp h
  cases h

/-- `append` is failure-atomic. -/
theorem append_atomic (child : HandleRef) : (append fuel self child).Atomic :=
  .bind (PyM.readOnly_handle self) fun _ => .bind (PyM.readOnly_handle child) fun _ =>
    .bind (assertSameTree_readOnly _ _) fun _ => attach_atomic self _

/-- `prepend` is failure-atomic. -/
theorem prepend_atomic (child : HandleRef) : (prepend fuel self child).Atomic :=
  .bind (PyM.readOnly_handle self) fun _ => .bind (PyM.readOnly_handle child) fun _ =>
    .bind (assertSameTree_readOnly _ _) fun _ => attach_atomic self _

/-- `insert_after` is failure-atomic. -/
theorem insertAfter_atomic (after : Option HandleRef) (child : HandleRef) :
    (insertAfter fuel self after child).Atomic := by
  refine .bind (PyM.readOnly_handle self) fun _ => .bind (PyM.readOnly_handle child) fun _ =>
    .bind (assertSameTree_readOnly _ _) fun _ => .bind (afterHandle_readOnly _ _) fun a => ?_
  refine withTreeMut_atomic fun tree node e tree' h => ?_
  split at h
  · cases h
    rfl
  · obtain ⟨tree₁, -, h⟩ := Library.bind_eq_ok.mp h
    cases h

/-- `remove` is failure-atomic. -/
theorem remove_atomic : (remove fuel self).Atomic := by
  refine withTreeMut_atomic fun tree node e tree' h => ?_
  split at h
  · cases h
    rfl
  · obtain ⟨tree₁, -, h⟩ := Library.bind_eq_ok.mp h
    cases h

/-- `extract` is failure-atomic. -/
theorem extract_atomic : (extract fuel self).Atomic := by
  refine .bind_quiet (withTreeMut_atomic fun tree node e tree' h => ?_) fun newTree =>
    PyM.quiet_fromTree newTree
  split at h
  · cases h
    rfl
  · obtain ⟨tree₁, -, h⟩ := Library.bind_eq_ok.mp h
    cases h

/-- Allocating is failure-atomic. -/
theorem alloc_atomic (alloc : Tree → Exec (Tree × NodeId)) :
    PyM.Atomic (do
      let (id, version) ← withTreeMut self fun tree _ => do
        let (tree, id) ← alloc tree
        return ((.ok (id, tree.version) : Except PyErr (NodeId × UInt64)), tree)
      share self id version) := by
  refine .bind_quiet (withTreeMut_atomic fun tree node e tree' h => ?_) fun _ =>
    share_quiet self _ _
  obtain ⟨⟨tree₁, id⟩, -, h⟩ := Library.bind_eq_ok.mp h
  cases h

end SExp

/-- Advancing an iterator is failure-atomic. -/
theorem SExpIter.step_atomic (ref : IterRef) : (SExpIter.step ref).Atomic := by
  unfold SExpIter.step
  refine .bind (PyM.readOnly_iter ref) fun it => ?_
  rcases hnext : it.next with _ | current
  · exact (PyM.readOnly_pure _).atomic
  · refine .bind (PyM.readOnly_treeAt _) fun tree => ?_
    split
    · exact (PyM.readOnly_raise _).atomic
    · refine .bind (PyM.readOnly_lift _) fun node => (PyM.Quiet.bind ?_ fun _ => ?_).atomic
      · exact PyM.quiet_setIter _ _
      · exact (PyM.quiet_fromShared _ _ _).map

/-- **Failure atomicity.** A call that raises leaves the objects as they are. -/
theorem call_atomic (fuel : Nat) (c : Call) : (call fuel c).Atomic := by
  cases c with
  | parse source => exact (pyParse_atomic fuel source).map
  | new => exact (PyM.Atomic.bind (PyM.readOnly_lift _) fun _ => (PyM.quiet_fromTree _).atomic).map
  | repr self => exact (SExp.repr_atomic fuel self).map
  | len self => exact SExp.withTree_readOnly.atomic.map
  | eq self o => exact (SExp.eq_readOnly fuel self o).atomic.map
  | contains self item => exact (SExp.contains_readOnly fuel self item).atomic.map
  | getItem self key => exact (SExp.getItem_atomic fuel self key).map
  | iter self => exact (SExp.withTree_atomic self fun _ => SExp.shareIter_quiet self _ _).map
  | next it => exact (SExpIter.step_atomic it).map
  | head self => exact (SExp.withTree_atomic self fun _ => SExp.share_quiet self _ _).map
  | tail self => exact (SExp.withTree_atomic self fun _ => SExp.shareIter_quiet self _ _).map
  | isAtom self => exact SExp.withTree_readOnly.atomic.map
  | value self => exact SExp.withTree_readOnly.atomic.map
  | setValue self value => exact (SExp.setValue_atomic self value).map
  | parent self => exact (SExp.parent_atomic self).map
  | newAtom self value => exact (SExp.alloc_atomic self _).map
  | newList self => exact (SExp.alloc_atomic self _).map
  | append self child => exact (SExp.append_atomic fuel self child).map
  | prepend self child => exact (SExp.prepend_atomic fuel self child).map
  | insertAfter self after child => exact (SExp.insertAfter_atomic fuel self after child).map
  | remove self => exact (SExp.remove_atomic fuel self).map
  | clone self => exact (SExp.withTree_atomic self fun _ => PyM.quiet_fromTree _).map
  | extract self => exact (SExp.extract_atomic fuel self).map

end Sexp
