import Sexp.Py.StaleChild
import Sexp.Py.Survival

/-! # Staleness is total after a removal, and permanent

A removal that succeeds makes every handle to a node below the root of the tree stale, and every
iterator over the tree that has not ended; what is stale stays stale in every later state; and a
call whose receiver is stale, or that advances a stale iterator, raises and changes nothing
(`stale_for_good`). None of this needs the trees to be well-formed. -/

namespace Sexp

open Library (Run)

variable {fuel : Nat} {w w' : World} {c : Call} {v : Value} {h : Handle} {tree tree' : Tree}
  {ref self : HandleRef} {events : List ApiEvent} {n : NodeId}

/-! ## Removing frees the node -/

/-- **A removal frees the node**, on any tree on which it returns. -/
theorem remove_not_live (h : Sexp.remove fuel tree n = .ok tree') : ¬ tree'.Live n := by
  obtain ⟨tree₁, -, hdrop⟩ := Library.bind_eq_ok.mp h
  -- the node has been freed, or is the next one to be freed
  refine Library.iterate_invariant
    (fun s : Tree × List NodeId => ¬ s.1.Live n ∨ s.2.head? = some n) (fun t => ¬ t.Live n) ?_ ?_
    (.inr rfl) hdrop
  · rintro ⟨t, stack⟩ s' hinv hpass
    obtain ⟨current, rest, cursor, rest', rfl, -, -, rfl⟩ := dropPass_again hpass
    left
    show ¬ ((t.nodes.remove current).1.get n).isSome = true
    rw [Slab.get_remove]
    split
    · exact Bool.false_ne_true
    · rename_i hne
      rcases hinv with hdead | hhead
      · exact hdead
      · exact absurd (Option.some.inj hhead).symm hne
  · rintro ⟨t, stack⟩ t' hinv hpass
    obtain ⟨rfl, rfl⟩ := dropPass_leave hpass
    rcases hinv with hdead | hhead
    · exact hdead
    · cases hhead

/-- A call that removes a node and returns writes the tree of its receiver. -/
theorem Effect.of_removes (he : Effect fuel w c v w') (hc : c.removes = true) :
    ∃ self k tree tree', c.self? = some self ∧ w.Receives self k tree ∧
      w.Writes fuel k tree c tree' ∧ w'.trees[k.tree]? = some tree' := by
  cases he with
  | observe hedits _ _ =>
      rw [Call.removes_of_bumps (Call.bumps_of_edits hedits)] at hc
      cases hc
  | next _ _ _ _ _ => cases hc
  | create hremoves _ =>
      rw [hc] at hremoves
      cases hremoves
  | @write _ _ self k tree tree' hself hrec _ _ hwrite =>
      exact ⟨self, k, tree, tree', hself, hrec, hwrite, World.trees_refreshed hrec tree'⟩
  | alloc _ _ hallocates _ =>
      rw [Call.removes_of_bumps (Call.bumps_of_allocates hallocates)] at hc
      cases hc
  | @extract self k tree tree₁ copy hrec hne _ hremove =>
      have htree := World.trees_refreshed hrec tree₁.bumpVersion
      refine ⟨self, k, tree, tree₁.bumpVersion, rfl, hrec, .remove rfl hne hremove, ?_⟩
      rw [World.push, List.getElem?_append_left (List.getElem?_eq_some_iff.mp htree).1]
      exact htree

/-- The receiver of a removal is not live after it. -/
theorem World.Writes.not_live (hwrite : w.Writes fuel h tree c tree') (hc : c.removes = true) :
    ¬ tree'.Live h.node := by
  obtain ⟨tree₁, hremove, rfl⟩ := hwrite.of_removes hc
  have hdead : ¬ tree₁.Live h.node := remove_not_live hremove
  exact hdead

/-! ## Stale handles and iterators -/

/-- **A stale handle.** -/
def World.StaleHandle (w : World) (ref : HandleRef) : Prop :=
  ∃ (h : Handle) (tree : Tree), w.handles[ref]? = some h ∧ w.trees[h.tree]? = some tree ∧
    h.isStale tree = true

/-- **A stale iterator**: it has an element left, and its tree has another version. -/
def World.StaleIter (w : World) (ref : IterRef) : Prop :=
  ∃ (it : SExpIter) (tree : Tree) (x : NodeId), w.iters[ref]? = some it ∧ it.next = some x ∧
    w.trees[it.tree]? = some tree ∧ tree.version ≠ it.version

/-- A handle to a node below the root is stale when its tree has a newer version. -/
theorem Handle.stale_of_lt (hne : h.node ≠ tree.root) (hlt : h.version < tree.version) :
    h.isStale tree = true := by
  have hversion : h.version ≠ tree.version := UInt64.ne_of_lt hlt
  simp [Handle.isStale, hne, hversion]

/-- **A removal makes every handle stale** that names a node of the tree below the root. -/
theorem Effect.stale_handles (he : Effect fuel w c v w') (hc : c.removes = true)
    (hoverflow : c.NoOverflow w) (hreached : w.VersionsReached) (hself : c.self? = some self)
    {k : Handle} (hk : w.handles[self]? = some k) (hh : w.handles[ref]? = some h)
    (hsame : h.tree = k.tree) (htree : w.trees[k.tree]? = some tree) (hne : h.node ≠ tree.root) :
    w'.StaleHandle ref := by
  obtain ⟨self', k', tree₀, tree', hself', hrec, hwrite, ht'⟩ := he.of_removes hc
  obtain rfl : self = self' := Option.some.inj (hself.symm.trans hself')
  obtain rfl := Option.some.inj (hk.symm.trans hrec.handle_eq)
  obtain rfl := Option.some.inj (htree.symm.trans hrec.tree_eq)
  have hbumps : c.bumps = true := Call.bumps_of_removes hc
  obtain ⟨h', hh', hsame', hnode', rfl | ⟨_, tree₁, -, -, hwrite₁, -, hlive, -⟩⟩ :=
    he.handle_step hh
  · refine ⟨h', tree', hh', hsame ▸ ht', Handle.stale_of_lt (by rwa [hwrite.root_eq]) ?_⟩
    -- the snapshot was not ahead of the version, which has been bumped
    obtain ⟨tree₂, ht₂, hle⟩ := hreached.handles h' (List.mem_of_getElem? hh)
    obtain rfl := Option.some.inj (htree.symm.trans (hsame ▸ ht₂))
    rw [hwrite.version_eq, if_pos hbumps]
    exact UInt64.lt_of_le_of_lt hle (version_lt_succ (hoverflow self k tree hself hrec hbumps))
  · -- only a live receiver is refreshed
    exact absurd hlive (hwrite₁.not_live hc)

/-- **A removal makes every iterator stale** that goes over the tree and has not ended. -/
theorem Effect.stale_iters (he : Effect fuel w c v w') (hc : c.removes = true)
    (hoverflow : c.NoOverflow w) (hreached : w.VersionsReached) (hself : c.self? = some self)
    {k : Handle} (hk : w.handles[self]? = some k) {it : SExpIter} {i : IterRef} {x : NodeId}
    (hit : w.iters[i]? = some it) (hnext : it.next = some x) (hsame : it.tree = k.tree) :
    w'.StaleIter i := by
  obtain ⟨self', k', tree, tree', hself', hrec, hwrite, ht'⟩ := he.of_removes hc
  obtain rfl : self = self' := Option.some.inj (hself.symm.trans hself')
  obtain rfl := Option.some.inj (hk.symm.trans hrec.handle_eq)
  have hbumps : c.bumps = true := Call.bumps_of_removes hc
  obtain ⟨it', hit', -, -, rfl | ⟨_, _, _, hcall, -⟩⟩ := he.iter_step hit
  · refine ⟨it', tree', x, hit', hnext, hsame ▸ ht', ?_⟩
    obtain ⟨tree₁, ht₁, hle⟩ := hreached.iters it' (List.mem_of_getElem? hit)
    obtain rfl := Option.some.inj (hrec.tree_eq.symm.trans (hsame ▸ ht₁))
    have hgrown : it'.version < tree.version + 1 :=
      UInt64.lt_of_le_of_lt hle (version_lt_succ (hoverflow self k tree hself hrec hbumps))
    rw [hwrite.version_eq, if_pos hbumps]
    exact (UInt64.ne_of_lt hgrown).symm
  · subst hcall
    cases hc

/-! ## Staleness is permanent -/

/-- **A stale handle stays stale** under every effect. -/
theorem Effect.staleHandle (he : Effect fuel w c v w') (hoverflow : c.NoOverflow w)
    (hreached : w.VersionsReached) (hstale : w.StaleHandle ref) : w'.StaleHandle ref := by
  obtain ⟨h, tree, hh, ht, hstale⟩ := hstale
  obtain ⟨h', hh', hsame, -, -⟩ := he.handle_step hh
  obtain ⟨tree', ht', -⟩ := he.version_le hoverflow ht
  refine ⟨h', tree', hh', hsame ▸ ht', ?_⟩
  by_contra hfresh
  -- if it could be used now, it could be used before
  have hrec : w'.Receives ref h' tree' := ⟨hh', hsame ▸ ht', Bool.eq_false_iff.mpr hfresh⟩
  obtain ⟨tree₁, hbefore⟩ :=
    he.receives_of_after hoverflow (hreached.handles h (List.mem_of_getElem? hh)) hh hrec
  obtain rfl := Option.some.inj (ht.symm.trans hbefore.tree_eq)
  rw [hbefore.fresh] at hstale
  cases hstale

/-- **A stale iterator stays stale** under every effect. -/
theorem Effect.staleIter {i : IterRef} (he : Effect fuel w c v w') (hoverflow : c.NoOverflow w)
    (hreached : w.VersionsReached) (hstale : w.StaleIter i) : w'.StaleIter i := by
  obtain ⟨it, tree, x, hit, hnext, ht, hne⟩ := hstale
  obtain ⟨tree', ht', -, hgrown⟩ := he.version_le hoverflow ht
  obtain ⟨it', hit', hsame, hversion, rfl | ⟨_, tree₁, _, -, -, ht₁, heq, -⟩⟩ := he.iter_step hit
  · refine ⟨it', tree', x, hit', hnext, ht', fun heq => hne ?_⟩
    obtain ⟨tree₁, ht₁, hle⟩ := hreached.iters it' (List.mem_of_getElem? hit)
    obtain rfl := Option.some.inj (ht.symm.trans ht₁)
    exact UInt64.le_antisymm (heq ▸ hgrown) hle
  · -- a stale iterator is not advanced
    obtain rfl := Option.some.inj (ht.symm.trans ht₁)
    exact absurd heq hne

/-! ## Stale receivers -/

/-- Whether a call consults the tree of its receiver: comparing a handle with an object that is no
handle does not. -/
def Call.consults : Call → Bool
  | .eq _ (.str _) | .eq _ .object => false
  | _ => true

section Stale

variable (hh : w.handles[ref]? = some h) (ht : w.trees[h.tree]? = some tree)
  (hstale : h.isStale tree = true)

include hh ht hstale

/-- A method that reads the tree of a stale receiver raises. -/
theorem SExp.withTree_of_stale {α : Type} (f : Tree → NodeId → Exec (Except PyErr α)) :
    SExp.withTree ref f w = .ok (.error staleError, w) :=
  SExp.receiver_of_stale hh ht hstale _

/-- A method that first reads the tree of a stale receiver raises. -/
theorem SExp.read_of_stale {α β : Type} (f : Tree → NodeId → Exec (Except PyErr α))
    (g : α → PyM β) : (SExp.withTree ref f >>= g) w = .ok (.error staleError, w) :=
  PyM.bind_of_error (SExp.withTree_of_stale hh ht hstale f)

/-- A method that first writes the tree of a stale receiver raises. -/
theorem SExp.write_of_stale {α β : Type} (f : Tree → NodeId → Exec (Except PyErr α × Tree))
    (g : α → PyM β) : (SExp.withTreeMut ref f >>= g) w = .ok (.error staleError, w) :=
  PyM.bind_of_error (SExp.withTreeMut_of_stale hh ht hstale)

end Stale

/-- A call that attaches raises, when what it goes on with does. -/
theorem SExp.attach_raises {α : Type} {child : HandleRef} (hh : w.handles[ref]? = some h)
    (hchild : child < w.handles.length) {g : ℕ → Handle → Handle → PyM α}
    (hg : ∀ x, ∃ e, ∀ fuel, g fuel h x w = .ok (.error e, w)) :
    ∃ e, ∀ fuel, (do
      let h ← PyM.handle ref
      let c ← PyM.handle child
      assertSameTree h.tree c.tree
      g fuel h c) w = .ok (.error e, w) := by
  obtain ⟨x, hx⟩ : ∃ x, w.handles[child]? = some x := ⟨_, List.getElem?_eq_getElem hchild⟩
  by_cases hsame : h.tree = x.tree
  · obtain ⟨e, he⟩ := hg x
    refine ⟨e, fun fuel => ?_⟩
    rw [SExp.sameTree_apply hh hx hsame]
    exact he fuel
  · refine ⟨.valueError "node belongs to a different tree", fun fuel => ?_⟩
    rw [PyM.bind_of_ok (PyM.handle_apply hh), PyM.bind_of_ok (PyM.handle_apply hx),
      PyM.bind_of_error (SExp.assertSameTree_raise hsame w)]

/-- `insert_after` raises on a stale receiver. -/
theorem SExp.insertAfter_of_stale {child : HandleRef} {after : Option HandleRef}
    (hh : w.handles[ref]? = some h) (ht : w.trees[h.tree]? = some tree)
    (hstale : h.isStale tree = true) (hchild : child < w.handles.length)
    (hafter : ∀ a, after = some a → a < w.handles.length) :
    ∃ e, ∀ fuel, SExp.insertAfter fuel ref after child w = .ok (.error e, w) := by
  refine SExp.attach_raises hh hchild fun x => ?_
  rcases after with _ | after
  · have hnone : SExp.afterHandle h.tree none w = .ok (.ok none, w) := rfl
    refine ⟨staleError, fun fuel => ?_⟩
    rw [PyM.bind_of_ok hnone]
    exact SExp.withTreeMut_of_stale hh ht hstale
  · obtain ⟨a, ha⟩ : ∃ a, w.handles[after]? = some a :=
      ⟨_, List.getElem?_eq_getElem (hafter after rfl)⟩
    by_cases hsame : h.tree = a.tree
    · refine ⟨staleError, fun fuel => ?_⟩
      rw [PyM.bind_of_ok (SExp.afterHandle_apply ha hsame)]
      exact SExp.withTreeMut_of_stale hh ht hstale
    · -- the sibling belongs to another tree
      exact ⟨_, fun fuel => PyM.bind_of_error (SExp.afterHandle_raise ha hsame)⟩

/-- `==` with a handle raises on a stale receiver. -/
theorem SExp.eq_of_stale {other : HandleRef} (hh : w.handles[ref]? = some h)
    (ht : w.trees[h.tree]? = some tree) (hstale : h.isStale tree = true)
    (hother : other < w.handles.length) (fuel : ℕ) :
    SExp.eq fuel ref (.sexp other) w = .ok (.error staleError, w) := by
  obtain ⟨o, ho⟩ : ∃ o, w.handles[other]? = some o := ⟨_, List.getElem?_eq_getElem hother⟩
  rw [SExp.eq, PyM.bind_of_ok (PyM.handle_apply hh), PyM.bind_of_ok (PyM.handle_apply ho)]
  have htree : PyM.treeAt h.tree w = .ok (.ok tree, w) := PyM.treeAt_apply ht
  by_cases hsame : h.tree = o.tree
  · rw [if_pos hsame, PyM.bind_of_ok htree, hstale, Bool.true_or, if_pos rfl]
    rfl
  · rw [if_neg hsame, PyM.bind_of_ok htree, if_pos hstale]
    rfl

/-- `[]` raises on a stale receiver. -/
theorem SExp.getItem_of_stale (hh : w.handles[ref]? = some h) (ht : w.trees[h.tree]? = some tree)
    (hstale : h.isStale tree = true) (key : PyKey) :
    ∃ e, ∀ fuel, SExp.getItem fuel ref key w = .ok (.error e, w) := by
  cases key with
  | int index =>
      by_cases hrange : index < -(2 ^ 63) ∨ 2 ^ 63 ≤ index
      · refine ⟨.overflowError, fun fuel => ?_⟩
        rw [SExp.getItem, if_pos hrange]
        rfl
      · refine ⟨staleError, fun fuel => ?_⟩
        rw [SExp.getItem, if_neg hrange]
        exact SExp.read_of_stale hh ht hstale _ _
  | str key => exact ⟨staleError, fun fuel => SExp.read_of_stale hh ht hstale _ _⟩
  | slice start stop step => exact ⟨staleError, fun fuel => SExp.read_of_stale hh ht hstale _ _⟩
  | object typeName => exact ⟨staleError, fun fuel => SExp.read_of_stale hh ht hstale _ _⟩

/-- **A call on a stale receiver raises**, whatever fuel its loops are given, and leaves the objects
as they are. -/
theorem call_of_stale (hstale : w.StaleHandle ref) (hself : c.self? = some ref)
    (hc : c.consults = true) (hexists : c.Exists w) :
    ∃ e, ∀ fuel, call fuel c w = .ok (.error e, w) := by
  obtain ⟨h, tree, hh, ht, hstale⟩ := hstale
  obtain ⟨hhandles, -⟩ := hexists
  -- the value of a call is the one of its method
  have hmap : ∀ {α : Type} {m : ℕ → PyM α} {g : α → Value},
      (∃ e, ∀ fuel, m fuel w = .ok (.error e, w)) →
      ∃ e, ∀ fuel, (g <$> m fuel) w = .ok (.error e, w) := by
    rintro α m g ⟨e, he⟩
    exact ⟨e, fun fuel => PyM.map_eq_error.mpr (he fuel)⟩
  -- a method that reads or writes the tree of its receiver, or does so first
  have hread : ∀ {α : Type} (f : ℕ → Tree → NodeId → Exec (Except PyErr α)),
      ∃ e, ∀ fuel, SExp.withTree ref (f fuel) w = .ok (.error e, w) :=
    fun f => ⟨staleError, fun fuel => SExp.withTree_of_stale hh ht hstale (f fuel)⟩
  have hwrite : ∀ {α : Type} (f : ℕ → Tree → NodeId → Exec (Except PyErr α × Tree)),
      ∃ e, ∀ fuel, SExp.withTreeMut ref (f fuel) w = .ok (.error e, w) :=
    fun f => ⟨staleError, fun fuel => SExp.withTreeMut_of_stale hh ht hstale⟩
  cases c with
  | parse source => cases hself
  | new => cases hself
  | next it => cases hself
  | repr self =>
      cases hself
      exact hmap ⟨staleError, fun fuel => SExp.receiver_of_stale hh ht hstale _⟩
  | len self =>
      cases hself
      exact hmap (hread _)
  | eq self other =>
      cases hself
      cases other with
      | sexp other =>
          have hother : other < w.handles.length :=
            hhandles other (by simp [Call.handles, PyArg.handles])
          exact hmap ⟨staleError, SExp.eq_of_stale hh ht hstale hother⟩
      | str value => cases hc
      | object => cases hc
  | contains self item =>
      cases hself
      exact hmap ⟨staleError, fun fuel => SExp.receiver_of_stale hh ht hstale _⟩
  | getItem self key =>
      cases hself
      exact hmap (SExp.getItem_of_stale hh ht hstale key)
  | iter self =>
      cases hself
      exact hmap ⟨staleError, fun fuel => SExp.read_of_stale hh ht hstale _ _⟩
  | head self =>
      cases hself
      exact hmap ⟨staleError, fun fuel => SExp.read_of_stale hh ht hstale _ _⟩
  | tail self =>
      cases hself
      exact hmap ⟨staleError, fun fuel => SExp.read_of_stale hh ht hstale _ _⟩
  | isAtom self =>
      cases hself
      exact hmap (hread _)
  | value self =>
      cases hself
      exact hmap (hread _)
  | setValue self value =>
      cases hself
      exact hmap (hwrite _)
  | parent self =>
      cases hself
      exact hmap ⟨staleError, fun fuel => SExp.read_of_stale hh ht hstale _ _⟩
  | newAtom self value =>
      cases hself
      exact hmap ⟨staleError, fun fuel => SExp.write_of_stale hh ht hstale _ _⟩
  | newList self =>
      cases hself
      exact hmap ⟨staleError, fun fuel => SExp.write_of_stale hh ht hstale _ _⟩
  | append self child =>
      cases hself
      have hchild : child < w.handles.length := hhandles child (by simp [Call.handles])
      exact hmap (SExp.attach_raises hh hchild fun x => hwrite _)
  | prepend self child =>
      cases hself
      have hchild : child < w.handles.length := hhandles child (by simp [Call.handles])
      exact hmap (SExp.attach_raises hh hchild fun x => hwrite _)
  | insertAfter self after child =>
      cases hself
      have hchild : child < w.handles.length := hhandles child (by simp [Call.handles])
      have hafter : ∀ a, after = some a → a < w.handles.length := fun a ha =>
        hhandles a (by simp [Call.handles, ha])
      exact hmap (SExp.insertAfter_of_stale hh ht hstale hchild hafter)
  | remove self =>
      cases hself
      exact hmap (hwrite _)
  | clone self =>
      cases hself
      exact hmap ⟨staleError, fun fuel => SExp.read_of_stale hh ht hstale _ _⟩
  | extract self =>
      cases hself
      exact hmap ⟨staleError, fun fuel => SExp.write_of_stale hh ht hstale _ _⟩

/-- **Advancing a stale iterator raises**, and leaves the objects as they are. -/
theorem call_of_staleIter {i : IterRef} (hstale : w.StaleIter i) (fuel : ℕ) :
    call fuel (.next i) w = .ok (.error staleError, w) := by
  obtain ⟨it, tree, x, hit, hnext, ht, hne⟩ := hstale
  refine PyM.map_eq_error.mpr ?_
  rw [SExpIter.step, PyM.bind_of_ok (PyM.iter_apply hit), hnext]
  change (PyM.treeAt it.tree >>= _) w = _
  rw [PyM.bind_of_ok (PyM.treeAt_apply ht), if_pos hne]
  rfl

/-! ## Runs -/

/-- What is stale in `w` is stale in `w'`. -/
structure World.KeepsStale (w w' : World) : Prop where
  /-- The handles. -/
  handles : ∀ ref, w.StaleHandle ref → w'.StaleHandle ref
  /-- The iterators. -/
  iters : ∀ i, w.StaleIter i → w'.StaleIter i

/-- A step without overflow keeps staleness, when no snapshot is ahead of its tree. -/
theorem ApiStep.keepsStale {l : CallResult} (hstep : ApiStep w l w')
    (hoverflow : l.call.NoOverflow w) (hreached : w.VersionsReached) : w.KeepsStale w' := by
  rcases hstep.cases with ⟨-, rfl⟩ | ⟨fuel, v, -, heffect⟩
  · exact ⟨fun _ h => h, fun _ h => h⟩
  · exact ⟨fun _ h => heffect.staleHandle hoverflow hreached h,
      fun _ h => heffect.staleIter hoverflow hreached h⟩

/-- **Staleness in a run** that ends in `w`. -/
structure StaleForGood (events : List ApiEvent) (w : World) : Prop where
  /-- After a removal that has returned, every handle that existed before it and names a node of the
  tree below the root is stale. -/
  removed_handles : ∀ e ∈ events, e.label.call.removes = true → (∃ v, e.label.result = .ok v) →
    ∀ (self : HandleRef) (k : Handle) (tree : Tree), e.label.call.self? = some self →
      e.before.handles[self]? = some k → e.before.trees[k.tree]? = some tree →
      ∀ ref h, e.before.handles[ref]? = some h → h.tree = k.tree → h.node ≠ tree.root →
        e.after.StaleHandle ref
  /-- After it, every iterator over the tree that has an element left is stale. -/
  removed_iters : ∀ e ∈ events, e.label.call.removes = true → (∃ v, e.label.result = .ok v) →
    ∀ (self : HandleRef) (k : Handle), e.label.call.self? = some self →
      e.before.handles[self]? = some k →
      ∀ i it x, e.before.iters[i]? = some it → it.tree = k.tree → it.next = some x →
        e.after.StaleIter i
  /-- What has been stale is stale. -/
  lasts : ∀ e ∈ events, e.after.KeepsStale w
  /-- A call on a stale receiver that consults its tree raises and changes nothing. -/
  calls_fail : ∀ ref, w.StaleHandle ref → ∀ c : Call, c.self? = some ref → c.consults = true →
    c.Exists w → ∃ e, ∀ fuel, call fuel c w = .ok (.error e, w)
  /-- Advancing a stale iterator raises and changes nothing. -/
  steps_fail : ∀ i, w.StaleIter i → ∀ fuel, call fuel (.next i) w = .ok (.error staleError, w)

/-- **Staleness is total after a removal, and permanent**, in every run in which no version
overflows. -/
theorem stale_for_good (hrun : ApiRun events w)
    (hoverflow : ∀ e ∈ events, e.label.call.NoOverflow e.before) : StaleForGood events w := by
  obtain ⟨-, hreached⟩ := versionsReached_of_run hrun hoverflow
  have heffect : ∀ e ∈ events, (∃ v, e.label.result = .ok v) →
      ∃ fuel v, Effect fuel e.before e.label.call v e.after := by
    rintro e he ⟨v, hv⟩
    rcases (Run.step_of_mem hrun e he).cases with ⟨⟨err, hraise⟩, -⟩ | ⟨fuel, v', -, heffect⟩
    · rw [hv] at hraise
      cases hraise
    · exact ⟨fuel, v', heffect⟩
  constructor
  case removed_handles =>
    intro e he hremoves hresult self k tree hself hk htree ref h hh hsame hne
    obtain ⟨fuel, v, heff⟩ := heffect e he hresult
    exact heff.stale_handles hremoves (hoverflow e he) (hreached e he).1 hself hk hh hsame htree hne
  case removed_iters =>
    intro e he hremoves hresult self k hself hk i it x hit hsame hnext
    obtain ⟨fuel, v, heff⟩ := heffect e he hresult
    exact heff.stale_iters hremoves (hoverflow e he) (hreached e he).1 hself hk hit hnext hsame
  case lasts =>
    refine Run.since hrun ?_ ?_
    · exact fun e _ => ⟨fun _ h => h, fun _ h => h⟩
    · intro e he s₀ hsince hstep
      have hkeeps := ApiStep.keepsStale hstep (hoverflow e he) (hreached e he).1
      exact ⟨fun ref h => hkeeps.handles ref (hsince.handles ref h),
        fun i h => hkeeps.iters i (hsince.iters i h)⟩
  case calls_fail =>
    intro ref hstale c hself hc hexists
    exact call_of_stale hstale hself hc hexists
  case steps_fail =>
    intro i hstale fuel
    exact call_of_staleIter hstale fuel

/-- No version overflows when a list is removed and its slot reused. -/
theorem eventsReuse_noOverflow : ∀ e ∈ eventsReuse, e.label.call.NoOverflow e.before := by
  intro e he
  simp only [eventsReuse, eventsTwoLists, List.mem_cons, List.not_mem_nil, or_false] at he
  rcases he with rfl | rfl | rfl | rfl
  · exact .of_not_bumps rfl
  · have hrec : twoLists.Receives 1 ⟨0, ⟨1⟩, 0⟩ looseLists := ⟨rfl, rfl, rfl⟩
    exact .of_receives rfl hrec (by decide)
  · exact .of_not_bumps rfl
  · exact .of_not_bumps rfl

/-- `stale_for_good` at a list that is removed and whose slot is reused. -/
theorem stale_for_good_reuse : StaleForGood eventsReuse afterReuse :=
  stale_for_good run_reuse eventsReuse_noOverflow

end Sexp
