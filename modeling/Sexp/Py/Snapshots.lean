import Sexp.Py.Consistency

/-! # Version snapshots

A handle remembers the version of its tree at which it was created or last refreshed, an iterator
the one at which it was created. What makes the snapshots work is that every node that is freed is
freed by a call that bumps the version: a snapshot of the current version names a live node
(`World.Snapshots`). Every effect keeps this and the trees well-formed, as long as what is attached
is sane, the root is not removed, and no version overflows (`Effect.sound`). -/

namespace Sexp

variable {fuel : Nat} {w w' : World} {c : Call} {v : Value} {h : Handle} {tree tree' : Tree}
  {t : Nat} {version : UInt64} {x : NodeId} {self : HandleRef}

/-! ## Writes and created trees -/

/-- **Every write keeps a tree well-formed**, when what it attaches is sane and the root is not
below what it removes. -/
theorem World.Writes.wellFormed (hwrite : w.Writes fuel h tree c tree') (hwf : tree.WellFormed)
    (hsane : ∀ op child, w.Attaching h tree c op child → op.run fuel tree h.node child = .ok tree' →
      op.Sane tree h.node child)
    (hspares : c.removes = true → h.node ≠ tree.root → ¬ tree.AncestorOrSelf h.node tree.root)
    (hfits : tree'.nodes.slots.length ≤ 2 ^ 32) : tree'.WellFormed := by
  refine ⟨hwrite.consistent hwf.toConsistent hsane hfits, ?_⟩
  by_cases hbumps : c.bumps = true
  · rw [hwrite.root_eq]
    cases hwrite with
    | cache htext => cases hbumps
    | value hn hatom => cases hbumps
    | alloc hc halloc =>
        rw [Call.bumps_of_allocates hc] at hbumps
        cases hbumps
    | attach hop hrun =>
        have hrelinked := Attachment.run_relinked hrun
        exact (hrelinked.isSome_iff tree.root).mpr hwf.root_live
    | @remove _ tree₁ hc hne hremove =>
        obtain ⟨-, -, hlive⟩ := remove_deleted hwf.toConsistent hremove
        change tree₁.Live tree.root
        exact (hlive tree.root).mpr ⟨hwf.root_live, hspares hc hne⟩
  · rw [hwrite.root_eq]
    exact hwrite.live hwf.slab (Bool.eq_false_iff.mpr hbumps) hwf.root_live

/-- **Every created tree is well-formed**, when the trees that exist are. -/
theorem World.Creates.wellFormed (hcreate : w.Creates fuel c tree)
    (hwf : w.AllTrees Tree.WellFormed) (hfits : tree.nodes.slots.length ≤ 2 ^ 32) :
    tree.WellFormed := by
  refine hcreate.of_sources hwf (fun hnew => ?_) (fun s hparse => ?_)
    fun source n hsource hne hclone => ?_
  · cases hnew
    exact wellFormed_single .list
  · exact (parse_wellFormed hparse hfits).1
  · exact (cloneSubtree_wellFormed hsource.toConsistent hne hclone).1

/-! ## Snapshots -/

/-- **A sound snapshot** of a node in the tree `t`: its version has been reached, and while it is
the current one, the node is live. -/
def World.Tracks (w : World) (t : Nat) (version : UInt64) (x : NodeId) : Prop :=
  ∃ tree : Tree, w.trees[t]? = some tree ∧ version ≤ tree.version ∧
    (version = tree.version → tree.Live x)

/-- A live node, at the current version. -/
theorem World.Tracks.of_live (ht : w.trees[t]? = some tree) (hx : tree.Live x) :
    w.Tracks t tree.version x :=
  ⟨tree, ht, UInt64.le_refl _, fun _ => hx⟩

/-- Snapshots are about the trees only. -/
theorem World.Tracks.of_trees_eq (htracks : w.Tracks t version x) (htrees : w'.trees = w.trees) :
    w'.Tracks t version x := by
  obtain ⟨tree, ht, hle, hlive⟩ := htracks
  exact ⟨tree, htrees ▸ ht, hle, hlive⟩

/-- The version of a written tree does not decrease, unless it overflows. -/
theorem World.Writes.version_le (hwrite : w.Writes fuel h tree c tree')
    (hoverflow : c.bumps = true → tree.version.toNat + 1 < 2 ^ 64) :
    tree.version ≤ tree'.version := by
  rw [hwrite.version_eq]
  split
  · rename_i hbumps
    exact UInt64.le_of_lt (version_lt_succ (hoverflow hbumps))
  · exact UInt64.le_refl _

/-- **A write keeps a sound snapshot sound**: it frees no node, or bumps the version. -/
theorem World.Writes.tracks (hwrite : w.Writes fuel h tree c tree') (hslab : tree.nodes.WellFormed)
    (hoverflow : c.bumps = true → tree.version.toNat + 1 < 2 ^ 64) (hle : version ≤ tree.version)
    (hlive : version = tree.version → tree.Live x) :
    version ≤ tree'.version ∧ (version = tree'.version → tree'.Live x) := by
  rw [hwrite.version_eq]
  by_cases hbumps : c.bumps = true
  · rw [if_pos hbumps]
    -- the snapshot is behind the new version
    have hlt := UInt64.lt_of_le_of_lt hle (version_lt_succ (hoverflow hbumps))
    refine ⟨UInt64.le_of_lt hlt, fun heq => ?_⟩
    exact absurd heq (UInt64.ne_of_lt hlt)
  · rw [if_neg hbumps]
    exact ⟨hle, fun heq => hwrite.live hslab (Bool.eq_false_iff.mpr hbumps) (hlive heq)⟩

/-- **Every effect keeps a sound snapshot sound.** -/
theorem Effect.tracks (he : Effect fuel w c v w') (hwf : w.AllTrees Tree.WellFormed)
    (hoverflow : c.NoOverflow w) (htracks : w.Tracks t version x) : w'.Tracks t version x := by
  obtain ⟨tree, ht, hle, hlive⟩ := htracks
  obtain ⟨tree', ht', rfl | ⟨self, h, hself, hrec, -, hwrite⟩⟩ := he.tree_step ht
  · exact ⟨_, ht', hle, hlive⟩
  · have hslab := (hwf tree (List.mem_of_getElem? ht)).slab
    obtain ⟨hle', hlive'⟩ := hwrite.tracks hslab (hoverflow self h tree hself hrec) hle hlive
    exact ⟨tree', ht', hle', hlive'⟩

/-! ## All snapshots -/

/-- **All snapshots are sound**: those of the handles, and those of the iterators that are not at
their end. -/
structure World.Snapshots (w : World) : Prop where
  /-- The handles. -/
  handles : ∀ h ∈ w.handles, w.Tracks h.tree h.version h.node
  /-- The iterators. -/
  iters : ∀ it ∈ w.iters, ∀ x, it.next = some x → w.Tracks it.tree it.version x

/-- **A receiver names a live node.** -/
theorem World.Snapshots.live (hsnap : w.Snapshots) (hwf : w.AllTrees Tree.WellFormed)
    (hrec : w.Receives self h tree) : tree.Live h.node := by
  obtain ⟨tree', ht, -, hlive⟩ := hsnap.handles h (List.mem_of_getElem? hrec.handle_eq)
  obtain rfl := Option.some.inj (hrec.tree_eq.symm.trans ht)
  have hfresh := hrec.fresh
  by_cases hroot : h.node = tree.root
  · rw [hroot]
    exact (hwf tree (List.mem_of_getElem? ht)).root_live
  · have hversion : h.version = tree.version := by
      simpa [Handle.isStale, hroot] using hfresh
    exact hlive hversion

/-- The handles after a write: they stay, or the receiver is refreshed because its node is live. -/
theorem World.mem_handles_refreshed {h' : Handle}
    (hmem : h' ∈ (w.refreshed self h tree').handles) :
    h' ∈ w.handles ∨ tree'.Live h.node ∧ h' = { h with version := tree'.version } := by
  unfold World.refreshed at hmem
  split at hmem
  · rename_i hlive
    rcases List.mem_or_eq_of_mem_set hmem with hold | rfl
    · exact .inl hold
    · exact .inr ⟨hlive, rfl⟩
  · exact .inl hmem

/-- A node that is linked in a well-formed tree is live. -/
theorem Tree.WellFormed.live_of_linked (hwf : tree.WellFormed) (hx : tree.Linked x) :
    tree.Live x := by
  obtain ⟨id, n, hn, hlink⟩ := hx
  exact hwf.links_live id n hn x hlink

/-- A node that a call has reached is tracked. -/
theorem World.Reaches.tracks (hreach : w.Reaches c t version x) (hwf : w.AllTrees Tree.WellFormed) :
    w.Tracks t version x := by
  obtain ⟨self, h, tree, -, hrec, rfl, rfl, hlinked⟩ := hreach
  have hmem := List.mem_of_getElem? hrec.tree_eq
  exact .of_live hrec.tree_eq ((hwf tree hmem).live_of_linked hlinked)

/-- An allocated node is live. -/
theorem Tree.Allocated.live {id : NodeId} {kind : NodeType} (halloc : tree.Allocated tree' id kind)
    (hwf : tree.WellFormed) (hfits : tree'.nodes.slots.length ≤ 2 ^ 32) : tree'.Live id := by
  obtain ⟨-, hget⟩ := Slab.get_insert hwf.slab halloc.insert_eq hfits
  rw [Tree.Live, hget, if_pos rfl]
  rfl

/-- The last of more trees. -/
theorem World.trees_push (w : World) (tree : Tree) :
    (w.push tree).trees[w.trees.length]? = some tree := by
  simp [World.push]

/-- **Every effect keeps all snapshots sound**, when the trees are well-formed before and after it.
-/
theorem Effect.snapshots (he : Effect fuel w c v w') (hwf : w.AllTrees Tree.WellFormed)
    (hwf' : w'.AllTrees Tree.WellFormed) (hoverflow : c.NoOverflow w) (hsmall : w'.Small)
    (hsnap : w.Snapshots) : w'.Snapshots := by
  -- the snapshots that exist stay sound
  have hhandles : ∀ h ∈ w.handles, w'.Tracks h.tree h.version h.node := fun h hmem =>
    he.tracks hwf hoverflow (hsnap.handles h hmem)
  have hiters : ∀ it ∈ w.iters, ∀ x, it.next = some x → w'.Tracks it.tree it.version x :=
    fun it hmem x hx => he.tracks hwf hoverflow (hsnap.iters it hmem x hx)
  cases he with
  | observe hc hnew hnewIters =>
      constructor
      · intro h hmem
        rcases List.mem_append.mp hmem with hold | hmem
        · exact hhandles h hold
        · exact ((hnew h hmem).tracks hwf).of_trees_eq rfl
      · intro it hmem x hx
        rcases List.mem_append.mp hmem with hold | hmem
        · exact hiters it hold x hx
        · exact (((hnewIters it hmem).2 x hx).tracks hwf).of_trees_eq rfl
  | @next ref it current tree node hit hnext htree hversion hnode =>
      have hmemtree := List.mem_of_getElem? htree
      constructor
      · intro h hmem
        rcases List.mem_append.mp hmem with hold | hmem
        · exact hhandles h hold
        · obtain rfl := List.mem_singleton.mp hmem
          have hlive : tree.Live current := by rw [Tree.Live, hnode]; rfl
          have htracks := World.Tracks.of_live htree hlive
          rw [hversion] at htracks
          exact htracks.of_trees_eq rfl
      · intro it' hmem x hx
        rw [World.extend, List.append_nil] at hmem
        rcases List.mem_or_eq_of_mem_set hmem with hold | rfl
        · exact hiters it' hold x hx
        · -- the iterator goes on with a sibling, which is linked
          have hlinked : tree.Linked x := ⟨current, node, hnode, by
            have hsibling : node.nextSibling = some x := hx
            simp [Node.links, hsibling]⟩
          have htracks :=
            World.Tracks.of_live htree ((hwf tree hmemtree).live_of_linked hlinked)
          rw [hversion] at htracks
          exact htracks.of_trees_eq rfl
  | @create _ tree hc hcreate =>
      refine ⟨fun h hmem => ?_, hiters⟩
      rcases List.mem_append.mp hmem with hold | hmem
      · exact hhandles h hold
      · obtain rfl := List.mem_singleton.mp hmem
        have htree := World.trees_push w tree
        exact .of_live htree (hwf' tree (List.mem_of_getElem? htree)).root_live
  | write hc hself halloc hextract hwrite =>
      refine ⟨fun h' hmem => ?_, hiters⟩
      rcases World.mem_handles_refreshed hmem with hold | ⟨hlive, rfl⟩
      · exact hhandles h' hold
      · exact .of_live (World.trees_refreshed hself _) hlive
  | @alloc _ self h tree tree' id kind hc hself halloc hallocated =>
      have htree : ((w.refreshed self h tree').extend
          [⟨h.tree, id, tree'.version⟩] []).trees[h.tree]? = some tree' :=
        World.trees_refreshed hself tree'
      have hmemtree := List.mem_of_getElem? hself.tree_eq
      constructor
      · intro h' hmem
        rcases List.mem_append.mp hmem with hmem | hmem
        · rcases World.mem_handles_refreshed hmem with hold | ⟨hlive, rfl⟩
          · exact hhandles h' hold
          · exact .of_live htree hlive
        · obtain rfl := List.mem_singleton.mp hmem
          have hfits := hsmall tree' (List.mem_of_getElem? htree)
          exact .of_live htree (hallocated.live (hwf tree hmemtree) hfits)
      · intro it hmem
        rw [World.extend, List.append_nil] at hmem
        exact hiters it hmem
  | @extract self h tree tree₁ copy hself hne hclone hremove =>
      refine ⟨fun h' hmem => ?_, hiters⟩
      have htrees := World.trees_push (w.refreshed self h tree₁.bumpVersion) copy
      rcases List.mem_append.mp hmem with hmem | hmem
      · rcases World.mem_handles_refreshed hmem with hold | ⟨hlive, rfl⟩
        · exact hhandles h' hold
        · -- the written tree is still at its place
          have htree := World.trees_refreshed hself tree₁.bumpVersion
          have hlt := (List.getElem?_eq_some_iff.mp htree).1
          refine .of_live ?_ hlive
          rw [World.push, List.getElem?_append_left hlt]
          exact htree
      · obtain rfl := List.mem_singleton.mp hmem
        exact .of_live htrees (hwf' copy (List.mem_of_getElem? htrees)).root_live

/-! ## Sound worlds -/

/-- **A sound world**: all trees are well-formed, and all snapshots are sound. -/
structure World.Sound (w : World) : Prop where
  /-- The trees. -/
  wellFormed : w.AllTrees Tree.WellFormed
  /-- The snapshots. -/
  snapshots : w.Snapshots

/-- The world before the first call is sound. -/
theorem World.sound_empty : World.empty.Sound where
  wellFormed := nofun
  snapshots := ⟨nofun, nofun⟩

/-- **A receiver of a sound world names a live node.** -/
theorem World.Sound.live (hsound : w.Sound) (hrec : w.Receives self h tree) : tree.Live h.node :=
  hsound.snapshots.live hsound.wellFormed hrec

/-- **Every effect keeps the world sound**, when what it attaches is sane, the root is not below
what it removes, and no version overflows. -/
theorem Effect.sound (he : Effect fuel w c v w') (hsound : w.Sound)
    (hattaches : c.AttachesOnly (fun tree parent op child => op.Sane tree parent child) w)
    (hremoves : c.RemovesOnly (fun tree node => ¬ tree.AncestorOrSelf node tree.root) w)
    (hoverflow : c.NoOverflow w) (hsmall : w'.Small) : w'.Sound := by
  have hwf : w'.AllTrees Tree.WellFormed := by
    refine he.forall_tree (fun self h tree tree' hself hrec hwrite hmem hwf => ?_)
      (fun tree hcreate hmem => hcreate.wellFormed hsound.wellFormed (hsmall tree hmem))
      hsound.wellFormed
    exact hwrite.wellFormed hwf
      (fun op child hop _ => hattaches self h tree op child hself hrec hop)
      (hremoves self h tree hself hrec) (hsmall tree' hmem)
  exact ⟨hwf, he.snapshots hsound.wellFormed hwf hoverflow hsmall hsound.snapshots⟩

end Sexp
