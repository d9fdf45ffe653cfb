import Sexp.Py.Snapshots

/-! # What becomes of handles and iterators

A handle keeps its tree and its node as long as it exists, and only a receiver gets another version
snapshot (`Effect.handle_step`). An iterator keeps its tree and its version, and goes on with the
next sibling (`Effect.iter_step`). No snapshot is ahead of its tree (`versionsReached_of_run`), so a
handle that is stale stays stale (`Effect.receives_of_after`): this needs no well-formed tree, only
that no version overflows. -/

namespace Sexp

variable {fuel : Nat} {w w' : World} {c : Call} {v : Value} {h h' : Handle} {tree tree' : Tree}
  {ref self : HandleRef} {it : SExpIter} {events : List ApiEvent}

/-! ## One handle -/

/-- What becomes of a handle when the tree of a receiver is written: it stays, or it is that
receiver, and is refreshed because its node is live. -/
theorem World.handle_step_refreshed {k : Handle} (hrec : w.Receives self k tree)
    (hh : w.handles[ref]? = some h) (tree' : Tree) :
    ∃ h' : Handle, (w.refreshed self k tree').handles[ref]? = some h' ∧ h'.tree = h.tree ∧
      h'.node = h.node ∧
      (h' = h ∨ self = ref ∧ k = h ∧ tree'.Live h.node ∧ h'.version = tree'.version) := by
  by_cases hself : self = ref
  · subst hself
    obtain rfl := Option.some.inj (hrec.handle_eq.symm.trans hh)
    refine ⟨_, World.handle_refreshed hrec.handle_eq tree', ?_⟩
    split
    · rename_i hlive
      exact ⟨rfl, rfl, .inr ⟨rfl, rfl, hlive, rfl⟩⟩
    · exact ⟨rfl, rfl, .inl rfl⟩
  · refine ⟨h, ?_, rfl, rfl, .inl rfl⟩
    unfold World.refreshed
    split
    · rw [List.getElem?_set_ne hself, hh]
    · exact hh

/-- **What becomes of a handle**: it stays, or it is a receiver whose tree has been written, and is
refreshed because its node is live. -/
theorem Effect.handle_step (he : Effect fuel w c v w') (hh : w.handles[ref]? = some h) :
    ∃ h' : Handle, w'.handles[ref]? = some h' ∧ h'.tree = h.tree ∧ h'.node = h.node ∧
      (h' = h ∨ ∃ tree tree', c.self? = some ref ∧ w.Receives ref h tree ∧
        w.Writes fuel h tree c tree' ∧ w'.trees[h.tree]? = some tree' ∧ tree'.Live h.node ∧
        h'.version = tree'.version) := by
  -- a handle in a list that only grows
  have hgrows : ∀ {l : List Handle} {h' : Handle} (new : List Handle), l[ref]? = some h' →
      (l ++ new)[ref]? = some h' := fun new hold => by
    rw [List.getElem?_append_left (List.getElem?_eq_some_iff.mp hold).1, hold]
  -- the receiver of a write may be refreshed, and the other handles stay
  have hwrites : ∀ {self k tree} (tree' : Tree), c.self? = some self → w.Receives self k tree →
      w.Writes fuel k tree c tree' →
      ∃ h' : Handle, (w.refreshed self k tree').handles[ref]? = some h' ∧ h'.tree = h.tree ∧
        h'.node = h.node ∧ (h' = h ∨ ∃ tree tree₁, c.self? = some ref ∧ w.Receives ref h tree ∧
          w.Writes fuel h tree c tree₁ ∧ (w.refreshed self k tree').trees[h.tree]? = some tree₁ ∧
          tree₁.Live h.node ∧ h'.version = tree₁.version) := by
    intro self k tree tree' hself hrec hwrite
    obtain ⟨h', hh', htree, hnode, hcases⟩ := World.handle_step_refreshed hrec hh tree'
    refine ⟨h', hh', htree, hnode, ?_⟩
    rcases hcases with hsame | ⟨rfl, rfl, hlive, hversion⟩
    · exact .inl hsame
    · have htree' := World.trees_refreshed hrec tree'
      exact .inr ⟨tree, tree', hself, hrec, hwrite, htree', hlive, hversion⟩
  cases he with
  | observe _ _ _ => exact ⟨h, hgrows _ hh, rfl, rfl, .inl rfl⟩
  | next _ _ _ _ _ => exact ⟨h, hgrows _ hh, rfl, rfl, .inl rfl⟩
  | create _ _ => exact ⟨h, hgrows _ hh, rfl, rfl, .inl rfl⟩
  | write hself hrec _ _ hwrite => exact hwrites _ hself hrec hwrite
  | @alloc _ _ _ _ tree' _ _ hself hrec halloc hallocated =>
      obtain ⟨h', hh', hrest⟩ := hwrites tree' hself hrec (.alloc halloc hallocated)
      exact ⟨h', hgrows _ hh', hrest⟩
  | @extract _ _ _ tree₁ _ hrec hne _ hremove =>
      obtain ⟨h', hh', htree, hnode, hcases⟩ :=
        hwrites tree₁.bumpVersion rfl hrec (.remove rfl hne hremove)
      refine ⟨h', hgrows _ hh', htree, hnode, ?_⟩
      rcases hcases with hsame | ⟨t, t', hself, hrec', hwrite, ht', hlive, hversion⟩
      · exact .inl hsame
      · refine .inr ⟨t, t', hself, hrec', hwrite, ?_, hlive, hversion⟩
        rw [World.push, List.getElem?_append_left (List.getElem?_eq_some_iff.mp ht').1]
        exact ht'

/-! ## One iterator -/

/-- **What becomes of an iterator**: it keeps its tree and its version, and stays where it is, or is
advanced to the next sibling in a tree of its version. -/
theorem Effect.iter_step {ref : IterRef} (he : Effect fuel w c v w')
    (hit : w.iters[ref]? = some it) :
    ∃ it' : SExpIter, w'.iters[ref]? = some it' ∧ it'.tree = it.tree ∧
      it'.version = it.version ∧
      (it' = it ∨ ∃ current tree node, c = .next ref ∧ it.next = some current ∧
        w.trees[it.tree]? = some tree ∧ tree.version = it.version ∧
        tree.nodes.get current = some node ∧ it'.next = node.nextSibling) := by
  cases he with
  | @observe _ _ _ iters _ _ _ =>
      refine ⟨it, ?_, rfl, rfl, .inl rfl⟩
      rw [World.extend, List.getElem?_append_left (List.getElem?_eq_some_iff.mp hit).1, hit]
  | @next ref' it' current tree node hit' hnext htree hversion hnode =>
      simp only [World.extend, List.append_nil]
      by_cases hsame : ref' = ref
      · subst hsame
        obtain rfl := Option.some.inj (hit'.symm.trans hit)
        have hlt := (List.getElem?_eq_some_iff.mp hit').1
        exact ⟨_, List.getElem?_set_self hlt, rfl, rfl,
          .inr ⟨current, tree, node, rfl, hnext, htree, hversion, hnode, rfl⟩⟩
      · exact ⟨it, by rw [List.getElem?_set_ne hsame, hit], rfl, rfl, .inl rfl⟩
  | create _ _ => exact ⟨it, hit, rfl, rfl, .inl rfl⟩
  | write _ _ _ _ _ => exact ⟨it, hit, rfl, rfl, .inl rfl⟩
  | alloc _ _ _ _ =>
      refine ⟨it, ?_, rfl, rfl, .inl rfl⟩
      rw [World.extend, List.append_nil]
      exact hit
  | extract _ _ _ _ => exact ⟨it, hit, rfl, rfl, .inl rfl⟩

/-! ## All snapshots -/

/-- **No snapshot is ahead of its tree.** -/
structure World.VersionsReached (w : World) : Prop where
  /-- The snapshots of the handles. -/
  handles : ∀ h ∈ w.handles, ∃ tree : Tree, w.trees[h.tree]? = some tree ∧ h.version ≤ tree.version
  /-- The snapshots of the iterators. -/
  iters : ∀ it ∈ w.iters, ∃ tree : Tree, w.trees[it.tree]? = some tree ∧ it.version ≤ tree.version

/-- The handles after an effect: they have been there before, or are at the version of their tree.
-/
theorem Effect.mem_handles (he : Effect fuel w c v w') (hmem : h' ∈ w'.handles) :
    h' ∈ w.handles ∨
      ∃ tree' : Tree, w'.trees[h'.tree]? = some tree' ∧ h'.version = tree'.version := by
  cases he with
  | observe hc hnew _ =>
      rcases List.mem_append.mp hmem with hold | hmem
      · exact .inl hold
      · obtain ⟨self, h, tree, -, hrec, htree, hversion, -⟩ := hnew h' hmem
        exact .inr ⟨tree, htree ▸ hrec.tree_eq, hversion⟩
  | @next _ it current tree _ _ _ htree hversion _ =>
      rcases List.mem_append.mp hmem with hold | hmem
      · exact .inl hold
      · obtain rfl := List.mem_singleton.mp hmem
        exact .inr ⟨tree, htree, hversion.symm⟩
  | @create _ tree _ _ =>
      rcases List.mem_append.mp hmem with hold | hmem
      · exact .inl hold
      · obtain rfl := List.mem_singleton.mp hmem
        exact .inr ⟨tree, World.trees_push w tree, rfl⟩
  | write _ hrec _ _ _ =>
      rcases World.mem_handles_refreshed hmem with hold | ⟨-, rfl⟩
      · exact .inl hold
      · exact .inr ⟨_, World.trees_refreshed hrec _, rfl⟩
  | @alloc _ _ _ _ tree' _ _ _ hrec _ _ =>
      have htree := World.trees_refreshed hrec tree'
      rcases List.mem_append.mp hmem with hmem | hmem
      · rcases World.mem_handles_refreshed hmem with hold | ⟨-, rfl⟩
        · exact .inl hold
        · exact .inr ⟨tree', htree, rfl⟩
      · obtain rfl := List.mem_singleton.mp hmem
        exact .inr ⟨tree', htree, rfl⟩
  | @extract self h _ tree₁ copy hrec _ _ _ =>
      rcases List.mem_append.mp hmem with hmem | hmem
      · rcases World.mem_handles_refreshed hmem with hold | ⟨-, rfl⟩
        · exact .inl hold
        · have htree := World.trees_refreshed hrec tree₁.bumpVersion
          refine .inr ⟨tree₁.bumpVersion, ?_, rfl⟩
          rw [World.push, List.getElem?_append_left (List.getElem?_eq_some_iff.mp htree).1]
          exact htree
      · obtain rfl := List.mem_singleton.mp hmem
        exact .inr ⟨copy, World.trees_push _ copy, rfl⟩

/-- The iterators after an effect: they have the tree and the version of one before, or are at the
version of their tree. -/
theorem Effect.mem_iters {it' : SExpIter} (he : Effect fuel w c v w') (hmem : it' ∈ w'.iters) :
    (∃ it ∈ w.iters, it'.tree = it.tree ∧ it'.version = it.version) ∨
      ∃ tree' : Tree, w'.trees[it'.tree]? = some tree' ∧ it'.version = tree'.version := by
  cases he with
  | observe _ _ hnew =>
      rcases List.mem_append.mp hmem with hold | hmem
      · exact .inl ⟨it', hold, rfl, rfl⟩
      · obtain ⟨⟨self, h, tree, -, hrec, htree, hversion⟩, -⟩ := hnew it' hmem
        exact .inr ⟨tree, htree ▸ hrec.tree_eq, hversion⟩
  | next hit _ _ _ _ =>
      rw [World.extend, List.append_nil] at hmem
      rcases List.mem_or_eq_of_mem_set hmem with hold | rfl
      · exact .inl ⟨it', hold, rfl, rfl⟩
      · exact .inl ⟨_, List.mem_of_getElem? hit, rfl, rfl⟩
  | create _ _ => exact .inl ⟨it', hmem, rfl, rfl⟩
  | write _ _ _ _ _ => exact .inl ⟨it', hmem, rfl, rfl⟩
  | alloc _ _ _ _ =>
      rw [World.extend, List.append_nil] at hmem
      exact .inl ⟨it', hmem, rfl, rfl⟩
  | extract _ _ _ _ => exact .inl ⟨it', hmem, rfl, rfl⟩

/-- The version of a tree does not decrease, unless it overflows. -/
theorem Effect.version_le {t : Nat} (he : Effect fuel w c v w') (hoverflow : c.NoOverflow w)
    (ht : w.trees[t]? = some tree) :
    ∃ tree' : Tree, w'.trees[t]? = some tree' ∧ tree'.root = tree.root ∧
      tree.version ≤ tree'.version := by
  obtain ⟨tree', ht', rfl | ⟨self, h, hself, hrec, -, hwrite⟩⟩ := he.tree_step ht
  · exact ⟨_, ht', rfl, UInt64.le_refl _⟩
  · exact ⟨tree', ht', hwrite.root_eq, hwrite.version_le (hoverflow self h tree hself hrec)⟩

/-- **Every effect keeps the snapshots behind their trees**, when no version overflows. -/
theorem Effect.versionsReached (he : Effect fuel w c v w') (hoverflow : c.NoOverflow w)
    (hreached : w.VersionsReached) : w'.VersionsReached := by
  constructor
  · intro h' hmem
    rcases he.mem_handles hmem with hold | ⟨tree', ht', hversion⟩
    · obtain ⟨tree, ht, hle⟩ := hreached.handles h' hold
      obtain ⟨tree', ht', -, hgrown⟩ := he.version_le hoverflow ht
      exact ⟨tree', ht', UInt64.le_trans hle hgrown⟩
    · exact ⟨tree', ht', hversion ▸ UInt64.le_refl _⟩
  · intro it' hmem
    rcases he.mem_iters hmem with ⟨it, hold, htree, hversion⟩ | ⟨tree', ht', hversion⟩
    · obtain ⟨tree, ht, hle⟩ := hreached.iters it hold
      obtain ⟨tree', ht', -, hgrown⟩ := he.version_le hoverflow ht
      rw [htree, hversion]
      exact ⟨tree', ht', UInt64.le_trans hle hgrown⟩
    · exact ⟨tree', ht', hversion ▸ UInt64.le_refl _⟩

/-- The world before the first call has no snapshots. -/
theorem World.versionsReached_empty : World.empty.VersionsReached := ⟨nofun, nofun⟩

/-- **No snapshot is ahead of its tree** in any state of a run without overflow. -/
theorem versionsReached_of_run (hrun : ApiRun events w)
    (hoverflow : ∀ e ∈ events, e.label.call.NoOverflow e.before) :
    w.VersionsReached ∧ ∀ e ∈ events, e.before.VersionsReached ∧ e.after.VersionsReached := by
  have hstep : ∀ (e : ApiEvent) fuel v, e.label.call.NoOverflow e.before →
      e.before.VersionsReached → Effect fuel e.before e.label.call v e.after →
      e.after.VersionsReached :=
    fun _ _ _ hoverflow hbefore heffect => heffect.versionsReached hoverflow hbefore
  exact ⟨hrun.invariant World.versionsReached_empty hstep hoverflow,
    hrun.invariant_around World.versionsReached_empty hstep hoverflow⟩

/-- Sound snapshots are behind their trees. -/
theorem World.Snapshots.handle_reached (hsnap : w.Snapshots) (hmem : h ∈ w.handles) :
    ∃ tree : Tree, w.trees[h.tree]? = some tree ∧ h.version ≤ tree.version := by
  obtain ⟨tree, ht, hle, -⟩ := hsnap.handles h hmem
  exact ⟨tree, ht, hle⟩

/-! ## Stale handles stay stale -/

/-- **A handle that can be used after a step could be used before it**, when its snapshot was not
ahead of its tree. -/
theorem Effect.receives_of_after (he : Effect fuel w c v w') (hoverflow : c.NoOverflow w)
    (hreached : ∃ tree : Tree, w.trees[h.tree]? = some tree ∧ h.version ≤ tree.version)
    (hh : w.handles[ref]? = some h) (hrec : w'.Receives ref h' tree') :
    ∃ tree, w.Receives ref h tree := by
  obtain ⟨k, hk, -, -, rfl | ⟨tree, -, -, hbefore, -⟩⟩ := he.handle_step hh
  · obtain rfl := Option.some.inj (hrec.handle_eq.symm.trans hk)
    obtain ⟨tree, ht, hle⟩ := hreached
    obtain ⟨tree₁, ht₁, hroot₁, hgrown⟩ := he.version_le hoverflow ht
    obtain rfl := Option.some.inj (hrec.tree_eq.symm.trans ht₁)
    refine ⟨tree, hh, ht, ?_⟩
    -- the version has not decreased, and has reached the snapshot before
    have hfresh := hrec.fresh
    unfold Handle.isStale at hfresh ⊢
    rw [hroot₁] at hfresh
    by_cases hroot : h'.node = tree.root
    · simp [hroot]
    · have hversion : h'.version = tree'.version := by simpa [hroot] using hfresh
      have heq : h'.version = tree.version := UInt64.le_antisymm hle (hversion ▸ hgrown)
      simp [heq]
  · exact ⟨tree, hbefore⟩

end Sexp
