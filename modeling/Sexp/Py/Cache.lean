import Sexp.Py.Consistency
import Sexp.Serialize.Printing

/-! # The cache of `repr`

`repr` caches the text of one node of a tree, together with the version of the tree. The cache is
invalidated by three different means: attaching and removing bump the version, assigning a value
clears the cache, and allocating leaves it alone, since no node that the text is about changes. The
cached text is the text of its node in every run in which no version counter overflows
(`repr_eq_uncached_of_run`); a counter that wraps around makes an old text valid again. -/

namespace Sexp

open Library (Answers Form Run)

variable {fuel : Nat} {w w' : World} {c : Call} {h : Handle} {tree tree' : Tree} {ref : HandleRef}
  {events : List ApiEvent}

/-! ## A valid cache -/

/-- **The cache of a tree is valid**: what is cached was made at some version up to the current one,
and if at the current one, it is the text of its node. -/
structure Tree.CacheValid (tree : Tree) : Prop where
  /-- The free list is consistent, so that allocating changes no node. -/
  slab : tree.nodes.WellFormed
  /-- The version at which the text was made has been reached. -/
  version_le : ∀ id version text, tree.reprCache = some (id, version, text) →
    version ≤ tree.version
  /-- A text of the current version is the text of its node. -/
  current : ∀ id version text, tree.reprCache = some (id, version, text) →
    version = tree.version → Answers (fun fuel => serializeNode fuel tree id) text

namespace Tree.CacheValid

/-- A tree without a cached text. -/
theorem of_none (hslab : tree.nodes.WellFormed) (hnone : tree.reprCache = none) :
    tree.CacheValid where
  slab := hslab
  version_le _ _ _ hcache := by
    rw [hnone] at hcache
    cases hcache
  current _ _ _ hcache := by
    rw [hnone] at hcache
    cases hcache

/-- **Bumping the version makes whatever is cached invalid**, unless the counter overflows. -/
theorem of_bump (hcache : tree.CacheValid) (hslab : tree'.nodes.WellFormed)
    (hrepr : tree'.reprCache = tree.reprCache) (hversion : tree'.version = tree.version + 1)
    (hoverflow : tree.version.toNat + 1 < 2 ^ 64) : tree'.CacheValid := by
  have hlt : tree.version < tree'.version := by
    rw [hversion]
    exact version_lt_succ hoverflow
  refine ⟨hslab, ?_, ?_⟩
  · intro id version text hentry
    rw [hrepr] at hentry
    exact UInt64.le_of_lt (UInt64.lt_of_le_of_lt (hcache.version_le id version text hentry) hlt)
  · intro id version text hentry hcurrent
    rw [hrepr] at hentry
    have hle := hcache.version_le id version text hentry
    rw [hcurrent] at hle
    exact absurd (UInt64.lt_of_lt_of_le hlt hle) (UInt64.lt_irrefl _)

/-- **Allocating keeps the cache valid**: the text is about other nodes. -/
theorem allocated {id : NodeId} {kind : NodeType} (hcache : tree.CacheValid)
    (halloc : tree.Allocated tree' id kind) : tree'.CacheValid := by
  have hextends : tree.Extends tree' := fun id m hm => halloc.get_of_live hcache.slab hm
  have hrepr : tree'.reprCache = tree.reprCache := by rw [halloc.frame]
  have hversion : tree'.version = tree.version := by rw [halloc.frame]
  refine ⟨halloc.slab hcache.slab, ?_, ?_⟩
  · intro id version text hentry
    rw [hrepr] at hentry
    rw [hversion]
    exact hcache.version_le id version text hentry
  · intro id version text hentry hcurrent
    rw [hrepr] at hentry
    rw [hversion] at hcurrent
    obtain ⟨bound, hbound⟩ := hcache.current id version text hentry hcurrent
    exact ⟨bound, fun fuel hle => hextends.serializeNode (hbound fuel hle)⟩

/-- What `cachedRepr` gives is the text of the node. -/
theorem cachedRepr_answers {node : NodeId} {text : String} (hcache : tree.CacheValid)
    (hcached : tree.cachedRepr node = some text) :
    Answers (fun fuel => serializeNode fuel tree node) text := by
  unfold Tree.cachedRepr at hcached
  split at hcached
  · rename_i id version cached hentry
    split at hcached
    · rename_i hvalid
      obtain ⟨hversion, rfl⟩ := hvalid
      cases hcached
      exact hcache.current id version text hentry hversion
    · cases hcached
  · cases hcached

end Tree.CacheValid

/-! ## Writes and created trees -/

/-- **Every write keeps the cache valid**, when the version does not overflow. -/
theorem World.Writes.cacheValid (hwrite : w.Writes fuel h tree c tree') (hcache : tree.CacheValid)
    (hoverflow : c.bumps = true → tree.version.toNat + 1 < 2 ^ 64) : tree'.CacheValid := by
  have hversion := hwrite.version_eq
  cases hwrite with
  | @cache self text htext =>
      refine ⟨hcache.slab, ?_, ?_⟩
      · rintro id version cached ⟨rfl⟩
        exact UInt64.le_refl _
      · rintro id version cached ⟨rfl⟩ -
        -- the entry does not change the text
        have hextends : tree.Extends (tree.setReprCache h.node text) := fun _ _ hm => hm
        exact (serializeNode_mono _ _).answers (hextends.serializeNode htext)
  | value hn hatom => exact .of_none (hcache.slab.update _ _) rfl
  | alloc hc halloc => exact hcache.allocated halloc
  | attach hop hrun =>
      have hrelinked := Attachment.run_relinked hrun
      have hbumps : c.bumps = true := by cases hop <;> rfl
      rw [hbumps] at hversion
      exact hcache.of_bump (hrelinked.slab hcache.slab) (by rw [hrelinked.frame]) hversion
        (hoverflow hbumps)
  | remove hc hne hremove =>
      have hbumps : c.bumps = true := Call.bumps_of_removes hc
      rw [hbumps] at hversion
      have hslab := remove_slab hcache.slab hremove
      refine hcache.of_bump hslab ?_ hversion (hoverflow hbumps)
      rw [remove_sameFrame hremove]
      rfl

/-- **Every created tree has a valid cache**, when the trees that exist have: a copy of the root
takes the cached text over together with the nodes, and every other created tree has none. -/
theorem World.Creates.cacheValid (hcreate : w.Creates fuel c tree)
    (hcache : w.AllTrees Tree.CacheValid) : tree.CacheValid := by
  refine hcreate.of_sources hcache (fun hnew => ?_) (fun s hparse => ?_)
    fun source n _ hne hclone => ?_
  · cases hnew
    exact .of_none (wellFormed_single .list).slab rfl
  · exact .of_none (parse_slab hparse) (parse_reprCache hparse)
  · have hgrown := cloneSubtree_grown hne hclone
    exact .of_none hgrown.slab hgrown.reprCache_eq

/-! ## `repr` with and without the cache -/

/-- **The text of a node without the cache**: the empty one for the root of a bare tree that has no
children, else the serialization. -/
def uncachedRepr (fuel : Nat) (tree : Tree) (node : NodeId) : Exec String := do
  if ← SExp.isBareRoot tree node then return "" else serializeNode fuel tree node

/-- More fuel does not change the text without the cache. -/
theorem uncachedRepr_mono (tree : Tree) (node : NodeId) :
    Library.FuelMono fun fuel => uncachedRepr fuel tree node := by
  refine .bind (.const _) fun bare => ?_
  cases bare
  · exact serializeNode_mono tree node
  · exact .const _

/-- Whether a live node is a childless root of a bare tree. -/
theorem SExp.isBareRoot_eq {node : NodeId} {m : Node} (hm : tree.nodes.get node = some m) :
    isBareRoot tree node =
      .ok (decide (tree.bare = true ∧ node = tree.root ∧ m.firstChild = none)) := by
  unfold isBareRoot
  by_cases hbare : tree.bare = true ∧ node = tree.root
  · rw [if_pos hbare, Tree.firstChild, Tree.get, Slab.index_eq_ok.mpr hm]
    rcases hfirst : m.firstChild with _ | c <;> simp [Library.ok_bind, hfirst, hbare]
  · rw [if_neg hbare, decide_eq_false fun h => hbare ⟨h.1, h.2.1⟩]
    rfl

/-- **The text of a node**: the one of its form, unless it is a childless root of a bare tree. -/
theorem uncachedRepr_answers {node : NodeId} {m : Node} {form : Form String}
    (hform : tree.Denotes node form) (hm : tree.nodes.get node = some m) :
    Answers (fun fuel => uncachedRepr fuel tree node)
      (if tree.bare = true ∧ node = tree.root ∧ m.firstChild = none then "" else print form) := by
  refine .bind (.const fun _ => SExp.isBareRoot_eq hm) ?_
  split
  · rename_i hbare
    rw [if_pos (of_decide_eq_true hbare)]
    exact .const fun _ => rfl
  · rename_i hbare
    rw [if_neg fun h => hbare (decide_eq_true h)]
    exact serializeNode_answers hform

/-- A live node of a consistent tree has a text without the cache. -/
theorem uncachedRepr_total (hcons : tree.Consistent) {node : NodeId} (hnode : tree.Live node) :
    ∃ text, Answers (fun fuel => uncachedRepr fuel tree node) text := by
  obtain ⟨form, hform⟩ := hcons.exists_denotes hnode
  obtain ⟨m, hm⟩ := Option.isSome_iff_exists.mp hnode
  exact ⟨_, uncachedRepr_answers hform hm⟩

namespace SExp

/-- **What `repr` does for a receiver.** -/
theorem repr_apply (hrec : w.Receives ref h tree) : repr fuel ref w = (do
    if ← isBareRoot tree h.node then return (.ok "", w)
    else
      match tree.cachedRepr h.node with
      | some cached => return (.ok cached, w)
      | none => do
          let text ← serializeNode fuel tree h.node
          return (.ok text, w.refreshed ref h (tree.setReprCache h.node text))) := by
  unfold repr
  rw [receiver_apply hrec]
  -- a bare root, a cached text, and a text that is computed and cached
  rcases isBareRoot tree h.node with fault | _ | _
  · rw [PyM.bind_of_fault rfl]
    rfl
  · rw [PyM.bind_of_ok rfl, if_neg Bool.false_ne_true]
    rcases tree.cachedRepr h.node with _ | cached
    · change withTreeMut ref _ w = _
      rw [withTreeMut_apply hrec]
      rcases serializeNode fuel tree h.node with fault | text
      · rfl
      · rfl
    · rfl
  · rw [PyM.bind_of_ok rfl, if_pos rfl]
    rfl

/-- **`repr` gives what is computed without the cache**, when the cache is valid. -/
theorem repr_ok {x : Except PyErr String} (hrec : w.Receives ref h tree) (hcache : tree.CacheValid)
    (hrepr : repr fuel ref w = .ok (x, w')) :
    ∃ text, x = .ok text ∧ Answers (fun fuel => uncachedRepr fuel tree h.node) text := by
  rw [repr_apply hrec] at hrepr
  obtain ⟨_ | _, hbare, hrest⟩ := Library.bind_eq_ok.mp hrepr
  · rcases hcached : tree.cachedRepr h.node with _ | cached
    · simp only [hcached] at hrest
      obtain ⟨text, htext, hpure⟩ := Library.bind_eq_ok.mp hrest
      cases hpure
      have hanswers := (serializeNode_mono tree h.node).answers htext
      exact ⟨text, rfl, .bind (.const fun _ => hbare) hanswers⟩
    · simp only [hcached] at hrest
      cases hrest
      have hanswers := hcache.cachedRepr_answers hcached
      exact ⟨cached, rfl, .bind (.const fun _ => hbare) hanswers⟩
  · cases hrest
    exact ⟨"", rfl, .bind (.const fun _ => hbare) (.const fun _ => rfl)⟩

/-- What `repr` answers when the cache is valid; it caches the text, or changes nothing. -/
theorem repr_writes {text : String} (hrec : w.Receives ref h tree) (hcache : tree.CacheValid)
    (hanswers : Answers (fun fuel => uncachedRepr fuel tree h.node) text) :
    ∃ w', Answers (fun fuel => repr fuel ref w) (.ok text, w') ∧
      (w' = w ∨ w' = w.refreshed ref h (tree.setReprCache h.node text)) := by
  simp only [repr_apply hrec]
  obtain ⟨fuel, hfuel⟩ := hanswers.exists_fuel
  obtain ⟨_ | _, hbare, hrest⟩ := Library.bind_eq_ok.mp hfuel
  · have htext := (serializeNode_mono tree h.node).answers hrest
    rcases hcached : tree.cachedRepr h.node with _ | cached
    · refine ⟨w.refreshed ref h (tree.setReprCache h.node text), ?_, .inr rfl⟩
      exact .bind (.const fun _ => hbare) (.bind htext (.const fun _ => rfl))
    · -- the cached text is the text of the node
      obtain rfl := (hcache.cachedRepr_answers hcached).unique htext
      exact ⟨w, .bind (.const fun _ => hbare) (.const fun _ => rfl), .inl rfl⟩
  · cases hrest
    exact ⟨w, .bind (.const fun _ => hbare) (.const fun _ => rfl), .inl rfl⟩

/-- **What is computed without the cache is what `repr` gives**, when the cache is valid. -/
theorem repr_answers {text : String} (hrec : w.Receives ref h tree) (hcache : tree.CacheValid)
    (hanswers : Answers (fun fuel => uncachedRepr fuel tree h.node) text) :
    ∃ w', Answers (fun fuel => repr fuel ref w) (.ok text, w') := by
  obtain ⟨w', hrepr, -⟩ := repr_writes hrec hcache hanswers
  exact ⟨w', hrepr⟩

end SExp

/-! ## A text that is cached, and a change -/

/-- `singleList` with an atom, which is not attached. -/
def looseAtom : Tree :=
  Tree.fromRaw ⟨[some Node.newList, some (Node.newAtom (Atom.new "a"))], []⟩ ⟨0⟩

/-- The objects after `t = SExp(); a = t.new_atom("a")`. -/
def listAndAtom : World := ⟨[looseAtom], [⟨0, ⟨0⟩, 0⟩, ⟨0, ⟨1⟩, 0⟩], []⟩

/-- `t.new_atom("a")` after `t = SExp()`. -/
theorem step_listAndAtom : ApiStep oneList ⟨.newAtom 0 "a", .ok (.sexp 1)⟩ listAndAtom := ⟨0, rfl⟩

/-- The objects after `repr(t)`, which caches `()`. -/
def listCached : World :=
  ⟨[looseAtom.setReprCache ⟨0⟩ "()"], [⟨0, ⟨0⟩, 0⟩, ⟨0, ⟨1⟩, 0⟩], []⟩

/-- `repr(t)` after it. -/
theorem step_listCached : ApiStep listAndAtom ⟨.repr 0, .ok (.str "()")⟩ listCached := ⟨3, rfl⟩

/-- The tree of `looseAtom` with the atom below the root, at some version; `()` is cached. -/
def atomAppended (version : UInt64) : Tree where
  nodes :=
    ⟨[some { Node.newList with firstChild := some ⟨1⟩, lastChild := some ⟨1⟩, childCount := 1 },
      some { Node.newAtom (Atom.new "a") with parent := some ⟨0⟩ }], []⟩
  root := ⟨0⟩
  version := version
  bare := false
  reprCache := some (⟨0⟩, 0, "()")

/-- The objects after some more `t.append(a)`. -/
def listAppended (version : UInt64) : World :=
  ⟨[atomAppended version], [⟨0, ⟨0⟩, version⟩, ⟨0, ⟨1⟩, 0⟩], []⟩

/-- The first `t.append(a)`. -/
theorem step_listAppended : ApiStep listCached ⟨.append 0 1, .ok .none⟩ (listAppended 1) := ⟨3, rfl⟩

/-- The events of the run `t = SExp(); a = t.new_atom("a"); repr(t); t.append(a)`. -/
def eventsAppended : List ApiEvent :=
  [⟨listCached, ⟨.append 0 1, .ok .none⟩, listAppended 1⟩,
    ⟨listAndAtom, ⟨.repr 0, .ok (.str "()")⟩, listCached⟩,
    ⟨oneList, ⟨.newAtom 0 "a", .ok (.sexp 1)⟩, listAndAtom⟩,
    ⟨World.empty, ⟨.new, .ok (.sexp 0)⟩, oneList⟩]

/-- The run `t = SExp(); a = t.new_atom("a"); repr(t); t.append(a)`. -/
theorem run_appended : ApiRun eventsAppended (listAppended 1) :=
  (((Run.nil.cons step_oneList).cons step_listAndAtom).cons step_listCached).cons
    step_listAppended

/-- What holds of the four calls holds along the run. -/
theorem forall_eventsAppended {P : ApiEvent → Prop}
    (hnew : P ⟨World.empty, ⟨.new, .ok (.sexp 0)⟩, oneList⟩)
    (hatom : P ⟨oneList, ⟨.newAtom 0 "a", .ok (.sexp 1)⟩, listAndAtom⟩)
    (hrepr : P ⟨listAndAtom, ⟨.repr 0, .ok (.str "()")⟩, listCached⟩)
    (happend : P ⟨listCached, ⟨.append 0 1, .ok .none⟩, listAppended 1⟩) :
    ∀ e ∈ eventsAppended, P e := by
  intro e he
  simp only [eventsAppended, List.mem_cons, List.not_mem_nil, or_false] at he
  rcases he with rfl | rfl | rfl | rfl
  · exact happend
  · exact hrepr
  · exact hatom
  · exact hnew

/-- The receiver of `t.append(a)`. -/
theorem receives_listCached :
    listCached.Receives 0 ⟨0, ⟨0⟩, 0⟩ (looseAtom.setReprCache ⟨0⟩ "()") := ⟨rfl, rfl, rfl⟩

/-- **Conditions along the run**: only its last call attaches. -/
theorem eventsAppended_attachesOnly (P : Tree → NodeId → Attachment → NodeId → Prop)
    (h : P (looseAtom.setReprCache ⟨0⟩ "()") ⟨0⟩ .append ⟨1⟩) :
    ∀ e ∈ eventsAppended, e.label.call.AttachesOnly P e.before := by
  apply forall_eventsAppended
  · exact Call.attachesOnly_of_none fun _ _ _ _ hop => by cases hop
  · exact Call.attachesOnly_of_none fun _ _ _ _ hop => by cases hop
  · exact Call.attachesOnly_of_none fun _ _ _ _ hop => by cases hop
  · exact Call.attachesOnly_append receives_listCached rfl h

/-- The trees of the run are small. -/
theorem eventsAppended_small : ∀ e ∈ eventsAppended, e.after.Small := by
  apply forall_eventsAppended
  · simp [World.Small, World.AllTrees, oneList, singleList, Tree.fromRaw]
  · simp [World.Small, World.AllTrees, listAndAtom, looseAtom, Tree.fromRaw]
  · simp [World.Small, World.AllTrees, listCached, looseAtom, Tree.fromRaw, Tree.setReprCache]
  · simp [World.Small, World.AllTrees, listAppended, atomAppended]

/-- No version overflows in the run. -/
theorem eventsAppended_noOverflow :
    ∀ e ∈ eventsAppended, e.label.call.NoOverflow e.before := by
  apply forall_eventsAppended
  · exact .of_not_bumps rfl
  · exact .of_not_bumps rfl
  · exact .of_not_bumps rfl
  · exact .of_receives rfl receives_listCached (by decide)

/-! ## Runs -/

/-- Every cache is valid in every run in which no version overflows. -/
theorem cacheValid_of_run (hrun : ApiRun events w)
    (hoverflow : ∀ e ∈ events, e.label.call.NoOverflow e.before) : w.AllTrees Tree.CacheValid := by
  have hwrite : ∀ (e : ApiEvent) fuel self h tree tree', e.label.call.NoOverflow e.before →
      e.label.call.self? = some self → e.before.Receives self h tree →
      e.before.Writes fuel h tree e.label.call tree' → tree' ∈ e.after.trees →
      tree.CacheValid → tree'.CacheValid := by
    intro e fuel self h tree tree' he hself hrec hwrite _ hcache
    exact hwrite.cacheValid hcache (he self h tree hself hrec)
  exact ApiRun.forall_tree hrun hwrite (fun _ _ _ _ hcache hcreate _ => hcreate.cacheValid hcache)
    hoverflow

/-- **The cache of `repr` is never observable** in a run in which no version counter overflows:
`repr` on a handle that is not stale returns a text exactly when computing it without the cache
does, and then the same one, and raises nothing; a cached text of the current version is the text of
its node; and on a live node of a well-formed tree there is a text. -/
theorem repr_eq_uncached_of_run (hrun : ApiRun events w)
    (hoverflow : ∀ e ∈ events, e.label.call.NoOverflow e.before) :
    (∀ ref h tree, w.Receives ref h tree → ∀ r,
      (∃ w', Answers (fun fuel => call fuel (.repr ref) w) (r, w')) ↔
        ∃ text, r = .ok (.str text) ∧
          Answers (fun fuel => uncachedRepr fuel tree h.node) text) ∧
    (w.AllTrees fun tree => ∀ id text, tree.reprCache = some (id, tree.version, text) →
      Answers (fun fuel => serializeNode fuel tree id) text) ∧
    w.AllTrees fun tree => tree.WellFormed → ∀ id, tree.Live id →
      ∃ text, Answers (fun fuel => uncachedRepr fuel tree id) text := by
  have hvalid := cacheValid_of_run hrun hoverflow
  refine ⟨fun ref h tree hrec r => ?_, fun tree htree id text hentry => ?_,
    fun tree htree hwf id hid => ?_⟩
  · have hcache := hvalid tree (List.mem_of_getElem? hrec.tree_eq)
    constructor
    · -- what is returned was computed, or is cached at the current version
      rintro ⟨w', hanswers⟩
      obtain ⟨fuel, hfuel⟩ := hanswers.exists_fuel
      rcases r with e | v
      · obtain ⟨_, hraise, -⟩ := SExp.repr_ok hrec hcache (PyM.map_eq_error.mp hfuel)
        cases hraise
      · obtain ⟨text, hreturn, rfl⟩ := PyM.map_eq_ok.mp hfuel
        obtain ⟨_, ⟨rfl⟩, hanswers⟩ := SExp.repr_ok hrec hcache hreturn
        exact ⟨text, rfl, hanswers⟩
    · rintro ⟨text, rfl, hanswers⟩
      obtain ⟨w', hrepr⟩ := SExp.repr_answers hrec hcache hanswers
      exact ⟨w', PyM.map_answers hrepr Value.str⟩
  · exact (hvalid tree htree).current id tree.version text hentry rfl
  · exact uncachedRepr_total hwf.toConsistent hid

/-- `repr_eq_uncached_of_run` after an append: `()` is cached for the root, and `repr` returns the
text of the list with the atom. -/
theorem repr_eq_uncached_of_run_appended :
    ∃ w', Answers (fun fuel => call fuel (.repr 0) (listAppended 1)) (.ok (.str "(a)"), w') := by
  have htext : uncachedRepr 5 (atomAppended 1) ⟨0⟩ = .ok "(a)" := rfl
  exact ((repr_eq_uncached_of_run run_appended eventsAppended_noOverflow).1 0 ⟨0, ⟨0⟩, 1⟩
    (atomAppended 1) ⟨rfl, rfl, rfl⟩ _).mpr
      ⟨"(a)", rfl, (uncachedRepr_mono (atomAppended 1) ⟨0⟩).answers htext⟩

/-! ## A version counter that wraps around -/

/-- Every further `t.append(a)` only bumps the version. -/
theorem step_listAppended_again (version : UInt64) :
    ApiStep (listAppended version) ⟨.append 0 1, .ok .none⟩ (listAppended (version + 1)) :=
  ⟨3, rfl⟩

/-- The run with `k + 1` calls of `t.append(a)`. -/
theorem run_listAppended (k : ℕ) :
    ∃ events, ApiRun events (listAppended (UInt64.ofNat (k + 1))) := by
  induction k with
  | zero =>
      exact ⟨eventsAppended, run_appended⟩
  | succ k ih =>
      obtain ⟨events, hrun⟩ := ih
      have hnext : UInt64.ofNat (k + 1 + 1) = UInt64.ofNat (k + 1) + 1 := by
        rw [UInt64.ofNat_add]
        rfl
      exact ⟨_, hnext ▸ hrun.cons (step_listAppended_again _)⟩

/-- The trees are well-formed. -/
theorem atomAppended_wellFormed (version : UInt64) : (atomAppended version).WellFormed := by
  have hloose : looseAtom.WellFormed :=
    wellFormed_unlinked .list [.atom (Atom.new "a")] (by decide)
  have hwf := hloose.append (p := ⟨0⟩) (c := ⟨1⟩) rfl rfl rfl (by decide)
    (rfl : append 0 looseAtom ⟨0⟩ ⟨1⟩ = .ok { atomAppended 1 with reprCache := none })
  exact ⟨hwf.toConsistent.of_nodes_eq rfl, rfl⟩

/-- **A version counter that wraps around makes an old text valid again.** After `t = SExp();
a = t.new_atom("a"); repr(t)` and `2 ^ 64` calls of `t.append(a)` the version is `0` again, and
`repr(t)` returns the text of the empty list that was cached at version `0`. -/
theorem repr_stale : ¬ ∀ events w, ApiRun events w → w.AllTrees Tree.WellFormed →
    ∀ ref h tree, w.Receives ref h tree → ∀ text w',
      Answers (fun fuel => call fuel (.repr ref) w) (.ok (.str text), w') →
        Answers (fun fuel => uncachedRepr fuel tree h.node) text := by
  intro hcorrect
  obtain ⟨events, hrun⟩ := run_listAppended (2 ^ 64 - 1)
  have hwrap : UInt64.ofNat (2 ^ 64 - 1 + 1) = 0 := rfl
  rw [hwrap] at hrun
  have hstale : Answers (fun fuel => call fuel (.repr 0) (listAppended 0))
      (.ok (.str "()"), listAppended 0) := .const fun _ => rfl
  have hanswers := hcorrect events _ hrun
    (List.forall_mem_singleton.mpr (atomAppended_wellFormed 0)) 0 ⟨0, ⟨0⟩, 0⟩ (atomAppended 0)
    ⟨rfl, rfl, rfl⟩ "()" _ hstale
  have htext : uncachedRepr 5 (atomAppended 0) ⟨0⟩ = .ok "(a)" := rfl
  have := hanswers.eq_of_ok (uncachedRepr_mono _ _) htext
  simp at this

end Sexp
