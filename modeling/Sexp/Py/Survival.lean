import Sexp.Py.Versions

/-! # Handles that survive a call

A call other than `remove` and `extract` frees no node, so that every handle keeps its node. But the
handle stays fresh only if it is the root's, the call does not bump the version, the handle is the
receiver, or it belongs to another tree: `append`, `prepend` and `insert_after` bump the version and
refresh the snapshot of their receiver only. A handle to a root that has been deleted is never
stale; it comes to name the node that a call puts in the empty slot (`survives_iff`). -/

namespace Sexp

variable {fuel : Nat} {w w' : World} {c : Call} {v : Value} {h k : Handle} {tree tree' : Tree}
  {ref self : HandleRef} {events : List ApiEvent} {id : NodeId} {n : Node}

/-! ## The free lists -/

/-- Every write keeps the free list consistent. -/
theorem World.Writes.slab (hwrite : w.Writes fuel k tree c tree') (hslab : tree.nodes.WellFormed) :
    tree'.nodes.WellFormed := by
  cases hwrite with
  | cache htext => exact hslab
  | value hn hatom => exact hslab.update _ _
  | alloc hc halloc => exact halloc.slab hslab
  | attach hop hrun => exact (Attachment.run_relinked hrun).slab hslab
  | @remove _ tree₁ hc hne hremove =>
      have hremoved : tree₁.nodes.WellFormed := remove_slab hslab hremove
      exact hremoved

/-- Every created tree has a consistent free list, when the trees that exist do. -/
theorem World.Creates.slab (hcreate : w.Creates fuel c tree)
    (hslabs : w.AllTrees fun tree => tree.nodes.WellFormed) : tree.nodes.WellFormed := by
  refine hcreate.of_sources hslabs (fun hnew => ?_) (fun s hparse => parse_slab hparse)
    fun source n _ hne hclone => (cloneSubtree_grown hne hclone).slab
  cases hnew
  exact (wellFormed_single .list).slab

/-- **The free lists are consistent** in every state of every run. -/
theorem slabs_of_run (hrun : ApiRun events w) : w.AllTrees fun tree => tree.nodes.WellFormed := by
  have hall : ∀ e ∈ events, (fun _ : ApiEvent => True) e := fun _ _ => trivial
  refine hrun.forall_tree ?_ ?_ hall
  · intro e fuel self k tree tree' _ _ _ hwrite _ hslab
    exact hwrite.slab hslab
  · intro e fuel tree _ hslabs hcreate _
    exact hcreate.slab hslabs

/-! ## What a call does to a node -/

/-- **A write that removes nothing keeps every node**, and its content unless the node is an atom to
which it assigns a value. -/
theorem World.Writes.kind (hwrite : w.Writes fuel k tree c tree') (hslab : tree.nodes.WellFormed)
    (hc : c.removes = false) (hn : tree.nodes.get id = some n) :
    ∃ n', tree'.nodes.get id = some n' ∧ (n'.kind = n.kind ∨ n.isAtom = true ∧
      ∃ self value, c = .setValue self value ∧ id = k.node ∧ n'.kind = .atom (Atom.new value)) := by
  cases hwrite with
  | cache htext => exact ⟨n, hn, .inl rfl⟩
  | @value self value m hm hatom =>
      have hget : (tree.withValue k.node value).nodes.get id =
          some (if id = k.node then { n with kind := .atom (Atom.new value) } else n) := by
        change (tree.nodes.update k.node _).get id = _
        rw [Slab.get_update, hn, Option.map_some]
      refine ⟨_, hget, ?_⟩
      by_cases hid : id = k.node
      · rw [if_pos hid]
        subst hid
        obtain rfl := Option.some.inj (hn.symm.trans hm)
        exact .inr ⟨hatom, self, value, rfl, rfl, rfl⟩
      · rw [if_neg hid]
        exact .inl rfl
  | alloc _ halloc => exact ⟨n, halloc.get_of_live hslab hn, .inl rfl⟩
  | attach hop hrun =>
      obtain ⟨g, hg, hkind⟩ := (Attachment.run_relinked hrun).rewrites
      refine ⟨g id n, ?_, .inl (hkind id n)⟩
      rw [hg.get_eq, hn, Option.map_some]
  | remove hremoves _ _ =>
      rw [hc] at hremoves
      cases hremoves

/-- **A write that removes nothing leaves a slot empty**, unless it allocates a node in it. -/
theorem World.Writes.vacant (hwrite : w.Writes fuel k tree c tree') (hslab : tree.nodes.WellFormed)
    (hc : c.removes = false) (hid : tree.nodes.get id = none) :
    tree'.nodes.get id = none ↔ ¬ (c.allocates.isSome ∧ tree.nodes.FillsNext id) := by
  -- what is not there is not rewritten
  have hkeeps : ∀ {tree₁ : Tree} {g : NodeId → Node → Node}, c.allocates = none →
      tree.nodes.Rewrites tree₁.nodes g →
      (tree₁.nodes.get id = none ↔ ¬ (c.allocates.isSome ∧ tree.nodes.FillsNext id)) := by
    intro tree₁ g hnone hg
    simp [hg.get_eq, hid, hnone]
  cases hwrite with
  | cache htext => exact hkeeps rfl (.refl _)
  | @value self value m hm hatom =>
      have hget : (tree.withValue k.node value).nodes.get id = none := by
        change (tree.nodes.update k.node _).get id = none
        rw [Slab.get_update, hid, Option.map_none]
      exact iff_of_true hget fun h => Bool.false_ne_true h.1
  | alloc hallocates halloc =>
      rw [hallocates, Slab.get_insert_of_vacant hslab halloc.insert_eq hid]
      simp
  | attach hop hrun =>
      obtain ⟨g, hg, -⟩ := (Attachment.run_relinked hrun).rewrites
      exact hkeeps (by cases hop <;> rfl) hg
  | remove hremoves _ _ =>
      rw [hc] at hremoves
      cases hremoves

/-- **A call that bumps the version and removes nothing** attaches: it writes the tree of its
receiver, whose node stays live. -/
theorem Effect.of_bumps (he : Effect fuel w c v w') (hbumps : c.bumps = true)
    (hc : c.removes = false) :
    ∃ self k tree tree', c.self? = some self ∧ w.Receives self k tree ∧
      w.Writes fuel k tree c tree' ∧ tree'.Live k.node ∧ w' = w.refreshed self k tree' := by
  cases he with
  | observe hedits _ _ =>
      rw [Call.bumps_of_edits hedits] at hbumps
      cases hbumps
  | next _ _ _ _ _ => cases hbumps
  | create hremoves hcreate =>
      cases hcreate with
      | extract _ _ _ => cases hremoves
      | _ => cases hbumps
  | @write _ _ self k tree tree' hself hrec _ _ hwrite =>
      refine ⟨self, k, tree, tree', hself, hrec, hwrite, ?_, rfl⟩
      cases hwrite with
      | cache _ => cases hbumps
      | value _ _ => cases hbumps
      | alloc hallocates _ =>
          rw [Call.bumps_of_allocates hallocates] at hbumps
          cases hbumps
      | attach hop hrun =>
          -- attaching rewrites nodes and frees none
          have hrelinked := Attachment.run_relinked hrun
          exact (hrelinked.isSome_iff k.node).mpr (Attachment.run_live_parent hrun)
      | remove hremoves _ _ =>
          rw [hc] at hremoves
          cases hremoves
  | alloc _ _ hallocates _ =>
      rw [Call.bumps_of_allocates hallocates] at hbumps
      cases hbumps
  | extract _ _ _ _ => cases hc

/-! ## Survival -/

/-- The call assigns to the node of the handle, and makes it `kind`. -/
def Call.Assigns (w : World) (c : Call) (h : Handle) (kind : NodeType) : Prop :=
  ∃ self value k, c = .setValue self value ∧ w.handles[self]? = some k ∧ k.tree = h.tree ∧
    k.node = h.node ∧ kind = .atom (Atom.new value)

/-- **The handle survives the call**: it is still not stale, and its slot still holds the node that
it held, with its content unless the call assigns to it, or still holds none. -/
def Survives (w w' : World) (c : Call) (ref : HandleRef) (h : Handle) (tree : Tree) : Prop :=
  ∃ (h' : Handle) (tree' : Tree), w'.Receives ref h' tree' ∧ h'.tree = h.tree ∧
    h'.node = h.node ∧
    (∀ n, tree.nodes.get h.node = some n →
      ∃ n', tree'.nodes.get h.node = some n' ∧ (n'.kind = n.kind ∨ c.Assigns w h n'.kind)) ∧
    (tree.nodes.get h.node = none → tree'.nodes.get h.node = none)

/-- **When a call leaves a handle fresh**: the handle names the root, or the call does not bump the
version, or the handle is the receiver, or it belongs to another tree than the receiver. -/
def Call.LeavesFresh (w : World) (c : Call) (ref : HandleRef) (h : Handle) (tree : Tree) : Prop :=
  h.node = tree.root ∨ c.bumps = false ∨ c.self? = some ref ∨
    ∀ self k, c.self? = some self → w.handles[self]? = some k → k.tree ≠ h.tree

/-- **When a call refills the slot of a handle**, which must be empty: the call allocates a node in
the tree of the handle, and the slot is the next one to be filled. -/
def Call.Refills (w : World) (c : Call) (h : Handle) (tree : Tree) : Prop :=
  c.allocates.isSome ∧ (∃ self k, c.self? = some self ∧ w.handles[self]? = some k ∧
    k.tree = h.tree) ∧ tree.nodes.FillsNext h.node

/-- A handle at the version of its tree is not stale. -/
theorem Handle.fresh_of_version (hversion : h.version = tree.version) : h.isStale tree = false := by
  simp [Handle.isStale, hversion]

/-- A handle to the root is not stale. -/
theorem Handle.fresh_of_root (hroot : h.node = tree.root) : h.isStale tree = false := by
  simp [Handle.isStale, hroot]

/-- A receiver that is not the root is at the version of its tree. -/
theorem World.Receives.version_eq (hrec : w.Receives ref h tree) (hne : h.node ≠ tree.root) :
    h.version = tree.version := by
  have hfresh := hrec.fresh
  simpa [Handle.isStale, hne] using hfresh

/-- **What a call leaves fresh survives it**, when the call removes nothing and does not refill the
slot. -/
theorem Effect.survives (he : Effect fuel w c v w') (hslab : tree.nodes.WellFormed)
    (hrec : w.Receives ref h tree) (hc : c.removes = false) (hfresh : c.LeavesFresh w ref h tree)
    (hfills : ¬ c.Refills w h tree) : Survives w w' c ref h tree := by
  obtain ⟨h', hh', hsame, hnode, hhandle⟩ := he.handle_step hrec.handle_eq
  obtain ⟨tree', ht', htree⟩ := he.tree_step hrec.tree_eq
  have hroot : tree'.root = tree.root := by
    rcases htree with rfl | ⟨_, _, _, _, _, hwrite⟩
    · rfl
    · exact hwrite.root_eq
  refine ⟨h', tree', ⟨hh', hsame ▸ ht', ?_⟩, hsame, hnode, fun n hn => ?_, fun hvacant => ?_⟩
  · by_cases hne : h.node = tree.root
    · exact Handle.fresh_of_root (by rw [hnode, hne, hroot])
    refine Handle.fresh_of_version ?_
    have hversion := hrec.version_eq hne
    rcases hhandle with rfl | ⟨_, tree₁, -, -, -, ht₁, -, hrefreshed⟩
    · -- the handle has not been refreshed, so its tree has kept its version
      rcases htree with rfl | ⟨self, k, hself, hreck, hk, hwrite⟩
      · exact hversion
      rcases hfresh with hroot | hbumps | hreceiver | hother
      · exact absurd hroot hne
      · rw [hwrite.version_eq, hversion, hbumps]
        rfl
      · by_cases hbumps : c.bumps = true
        · -- the receiver of a call that bumps the version is refreshed
          obtain ⟨self', k', tree₀, tree₁, hself', hreck', hwrite', hlive, rfl⟩ :=
            he.of_bumps hbumps hc
          obtain rfl : ref = self' := Option.some.inj (hreceiver.symm.trans hself')
          obtain rfl := Option.some.inj (hrec.handle_eq.symm.trans hreck'.handle_eq)
          have hcontains : tree₁.containsNode _ = true := hlive
          have hrefreshed := World.handle_refreshed hrec.handle_eq tree₁
          rw [if_pos hcontains, hh', Option.some.injEq] at hrefreshed
          have ht₁ := World.trees_refreshed hreck' tree₁
          rw [ht', Option.some.injEq] at ht₁
          rw [ht₁]
          exact congrArg Handle.version hrefreshed
        · rw [hwrite.version_eq, if_neg hbumps, hversion]
      · exact absurd hk (hother self k hself hreck.handle_eq)
    · rw [hrefreshed]
      rw [ht', Option.some.injEq] at ht₁
      rw [ht₁]
  · rcases htree with rfl | ⟨self, k, hself, hreck, hk, hwrite⟩
    · exact ⟨n, hn, .inl rfl⟩
    · obtain ⟨n', hn', hkind | ⟨-, self', value, rfl, hid, hvalue⟩⟩ :=
        hwrite.kind hslab hc hn
      · exact ⟨n', hn', .inl hkind⟩
      · obtain rfl : self' = self := Option.some.inj hself
        exact ⟨n', hn', .inr ⟨_, value, k, rfl, hreck.handle_eq, hk, hid.symm, hvalue⟩⟩
  · rcases htree with rfl | ⟨self, k, hself, hreck, hk, hwrite⟩
    · exact hvacant
    · exact (hwrite.vacant hslab hc hvacant).mpr fun hnext =>
        hfills ⟨hnext.1, ⟨self, k, hself, hreck.handle_eq, hk⟩, hnext.2⟩

/-- **What survives a call has been left fresh by it.** -/
theorem Effect.leavesFresh (he : Effect fuel w c v w') (hrec : w.Receives ref h tree)
    (hc : c.removes = false) (hsurvives : Survives w w' c ref h tree) :
    c.LeavesFresh w ref h tree := by
  unfold Call.LeavesFresh
  by_contra hstale
  push Not at hstale
  obtain ⟨hne, hbumps, hreceiver, self, k, hself, hk, hsame⟩ := hstale
  obtain ⟨self', k', tree₀, tree', hself', hreck, hwrite, -, rfl⟩ :=
    he.of_bumps (Bool.eq_true_of_not_eq_false hbumps) hc
  obtain rfl : self = self' := Option.some.inj (hself.symm.trans hself')
  obtain rfl := Option.some.inj (hk.symm.trans hreck.handle_eq)
  obtain rfl := Option.some.inj (hrec.tree_eq.symm.trans (hsame ▸ hreck.tree_eq))
  obtain ⟨h', tree₁, hrec', htree', -⟩ := hsurvives
  obtain ⟨h₁, hh₁, -, -, rfl | ⟨_, _, hself₁, -⟩⟩ := he.handle_step hrec.handle_eq
  · -- the handle has kept its snapshot, and the version has been bumped
    obtain rfl := Option.some.inj (hrec'.handle_eq.symm.trans hh₁)
    have ht' := World.trees_refreshed hreck tree'
    rw [hsame, hrec'.tree_eq, Option.some.injEq] at ht'
    obtain rfl := ht'
    have hversion := hrec'.version_eq (by rwa [hwrite.root_eq])
    rw [hwrite.version_eq, if_pos (Bool.eq_true_of_not_eq_false hbumps),
      hrec.version_eq hne] at hversion
    exact absurd hversion (by simp)
  · exact absurd hself₁ hreceiver

/-- **What survives a call is not in a slot that the call has refilled.** -/
theorem Effect.not_refills (he : Effect fuel w c v w') (hslab : tree.nodes.WellFormed)
    (hrec : w.Receives ref h tree) (hc : c.removes = false)
    (hsurvives : Survives w w' c ref h tree) : ¬ c.Refills w h tree := by
  rintro ⟨hallocates, ⟨self, k, hself, hk, hsame⟩, hnext⟩
  obtain ⟨kind, hkind⟩ := Option.isSome_iff_exists.mp hallocates
  obtain ⟨self', k', tree₀, tree', id, hself', hreck, halloc, -, rfl⟩ := he.of_allocates hkind
  obtain rfl : self = self' := Option.some.inj (hself.symm.trans hself')
  obtain rfl := Option.some.inj (hk.symm.trans hreck.handle_eq)
  obtain rfl := Option.some.inj (hrec.tree_eq.symm.trans (hsame ▸ hreck.tree_eq))
  obtain ⟨h', tree₁, hrec', htree', -, -, hvacant⟩ := hsurvives
  -- the tree reached is the one with the new node
  have ht' := World.trees_refreshed hreck tree'
  rw [hsame, ← htree'] at ht'
  obtain rfl := Option.some.inj (hrec'.tree_eq.symm.trans ht')
  have hempty := hnext.vacant hslab
  have hwrite : w.Writes fuel k tree c tree₁ := .alloc hkind halloc
  exact (hwrite.vacant hslab hc hempty).mp (hvacant hempty) ⟨hallocates, hnext⟩

/-- **Which handles survive a call.** In every reachable state, a handle that is not stale survives
a call other than `remove` and `extract` that returns, exactly if the call leaves it fresh and does
not refill its slot. -/
theorem survives_iff (hrun : ApiRun events w) (hrec : w.Receives ref h tree)
    (hstep : ApiStep w ⟨c, .ok v⟩ w') (hc : c.removes = false) :
    Survives w w' c ref h tree ↔ c.LeavesFresh w ref h tree ∧ ¬ c.Refills w h tree := by
  have hslab := slabs_of_run hrun tree (List.mem_of_getElem? hrec.tree_eq)
  rcases hstep.cases with ⟨⟨e, hraise⟩, -⟩ | ⟨fuel, v', -, heffect⟩
  · cases hraise
  · refine ⟨fun hsurvives => ⟨heffect.leavesFresh hrec hc hsurvives,
      heffect.not_refills hslab hrec hc hsurvives⟩, fun hfresh => ?_⟩
    exact heffect.survives hslab hrec hc hfresh.1 hfresh.2

/-- `survives_iff` at the receiver of `t.append(l)`. -/
theorem survives_iff_twoLists :
    Survives twoLists nested (.append 0 1) 0 ⟨0, ⟨0⟩, 0⟩ looseLists := by
  have hfills : ¬ (Call.append 0 1).Refills twoLists ⟨0, ⟨0⟩, 0⟩ looseLists :=
    fun h => Bool.false_ne_true h.1
  exact (survives_iff run_twoLists ⟨rfl, rfl, rfl⟩ step_nested rfl).mpr ⟨.inl rfl, hfills⟩

/-- **Attaching makes handles stale**: after `t = SExp(); l = t.new_list()`, the handle `l` does not
survive `t.append(l)`. -/
theorem attached_goes_stale : ¬ ∀ events w, ApiRun events w → ∀ ref h tree c v w',
    w.Receives ref h tree → ApiStep w ⟨c, .ok v⟩ w' → c.removes = false →
      Survives w w' c ref h tree := by
  intro hall
  obtain ⟨h', tree', hrec, -, -, -⟩ := hall _ _ run_twoLists 1 ⟨0, ⟨1⟩, 0⟩ looseLists _ _ _
    ⟨rfl, rfl, rfl⟩ step_nested rfl
  obtain rfl : (⟨0, ⟨1⟩, 0⟩ : Handle) = h' := Option.some.inj hrec.handle_eq
  obtain rfl : nestedLists = tree' := Option.some.inj hrec.tree_eq
  exact absurd hrec.fresh (by decide)

end Sexp
