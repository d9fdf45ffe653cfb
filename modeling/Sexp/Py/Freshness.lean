import Sexp.Py.RootStays
import Sexp.Py.Versions

/-! # Fresh handles over all runs

A handle that is not stale names the node that it was created for: since then its slot has held a
node in every state, and has not been given to another one (`fresh_handles_of_run`). This holds in
every run that attaches only live nodes other than the root and the ancestors of the receiver, and
in which neither a version overflows nor a tree gets more slots than there are keys. A tree with
more slots gives a key away twice. -/

namespace Sexp

open Library (Run)

variable {fuel : Nat} {w w' : World} {c : Call} {v : Value} {h h' : Handle} {tree tree' : Tree}
  {ref : HandleRef} {events : List ApiEvent}

/-! ## One step -/

/-- **An allocated node gets a free slot.** -/
theorem Effect.alloc_vacant {kind : NodeType} (he : Effect fuel w c v w')
    (hwf : w.AllTrees Tree.WellFormed) (hsmall : w'.Small) (hc : c.allocates = some kind) :
    v = .sexp w.handles.length ∧ ∃ (h : Handle) (tree : Tree),
      w'.handles[w.handles.length]? = some h ∧ w.trees[h.tree]? = some tree ∧
        ¬ tree.Live h.node := by
  obtain ⟨self, h, tree, tree', id, -, hrec, hallocated, hv, rfl⟩ := he.of_allocates hc
  have hmem := List.mem_of_getElem? hrec.tree_eq
  have htree := World.trees_refreshed hrec tree'
  obtain ⟨hvacant, -⟩ := Slab.get_insert (hwf tree hmem).slab hallocated.insert_eq
    (hsmall tree' (List.mem_of_getElem? htree))
  refine ⟨hv, ⟨h.tree, id, tree'.version⟩, tree, ?_, hrec.tree_eq, ?_⟩
  · have hlength := World.length_handles_refreshed w self h tree'
    rw [World.extend, ← hlength, List.getElem?_append_right le_rfl, Nat.sub_self]
    rfl
  · rw [Tree.Live, hvacant]
    exact Bool.false_ne_true

/-! ## Runs -/

/-- **The condition on an event**: it attaches only a live node that is neither the root nor the
receiver or above it, and behind a child of the receiver other than that node; and no version
overflows. -/
structure ApiEvent.Safe (e : ApiEvent) : Prop where
  /-- What is attached. -/
  attaches : e.label.call.AttachesOnly (fun tree parent op child =>
    tree.Live child ∧ child ≠ tree.root ∧ op.Sane tree parent child) e.before
  /-- The version does not overflow. -/
  overflow : e.label.call.NoOverflow e.before

/-- **The state of a safe run**: a sound world in which the roots are secure. -/
structure World.Intact (w : World) : Prop extends World.Sound w where
  /-- The roots. -/
  rootSecure : w.AllTrees Tree.RootSecure

/-- The world before the first call is intact. -/
theorem World.intact_empty : World.empty.Intact := ⟨World.sound_empty, nofun⟩

/-- A secure root has no parent. -/
theorem Tree.RootSecure.parentOf_root (hsecure : tree.RootSecure) :
    tree.parentOf tree.root = none := by
  obtain ⟨n, hn, hparent, -⟩ := hsecure.root_free
  rw [Tree.parentOf, hn, Option.bind_some, hparent]

/-- A secure root is below no other node. -/
theorem Tree.RootSecure.not_below (hsecure : tree.RootSecure) {node : NodeId}
    (hne : node ≠ tree.root) : ¬ tree.AncestorOrSelf node tree.root :=
  Tree.not_ancestorOrSelf hne hsecure.parentOf_root

/-- **A safe effect keeps the world intact.** -/
theorem Effect.intact (he : Effect fuel w c v w') (hintact : w.Intact)
    (hattaches : c.AttachesOnly (fun tree parent op child =>
      tree.Live child ∧ child ≠ tree.root ∧ op.Sane tree parent child) w)
    (hoverflow : c.NoOverflow w) (hsmall : w'.Small) : w'.Intact := by
  -- a secure root is not below the node that is removed
  have hremoves : c.RemovesOnly (fun tree node => ¬ tree.AncestorOrSelf node tree.root) w :=
    fun _ _ tree _ hrec _ hne =>
      (hintact.rootSecure tree (List.mem_of_getElem? hrec.tree_eq)).not_below hne
  have hsane := hattaches.imp fun _ _ _ _ hop => hop.2.2
  refine ⟨he.sound hintact.toSound hsane hremoves hoverflow hsmall, ?_⟩
  refine he.forall_tree (fun self h tree tree' hself hrec hwrite hmem hsecure => ?_)
    (fun tree hcreate hmem => hcreate.rootSecure hintact.rootSecure (hsmall tree hmem))
    hintact.rootSecure
  refine hwrite.rootSecure hsecure (fun op child hop => ?_) (hsmall tree' hmem)
  obtain ⟨-, hchild, -, hfits⟩ := hattaches self h tree op child hself hrec hop
  refine ⟨hchild, fun hsibling => ?_⟩
  -- a sibling has a parent, and the root has none
  match op with
  | .append => cases hsibling
  | .prepend => cases hsibling
  | .insertAfter none => cases hsibling
  | .insertAfter (some sibling) =>
      obtain rfl : sibling = tree.root := Option.some.inj hsibling
      have hparent := hfits.1
      rw [hsecure.parentOf_root] at hparent
      cases hparent

/-- **The handle has kept its node**: in every state since it was created, it has named the same
slot, and the slot has held a node. -/
def Held (events : List ApiEvent) (ref : HandleRef) (h : Handle) : Prop :=
  ∀ e ∈ events, ∀ h₀, e.after.handles[ref]? = some h₀ → h₀.tree = h.tree ∧ h₀.node = h.node ∧
    ∃ tree : Tree, e.after.trees[h.tree]? = some tree ∧ tree.Live h.node

/-- **The slot of the handle has been given away**: since the handle was created, a node has been
allocated in it. -/
def Reallocated (events : List ApiEvent) (ref : HandleRef) (h : Handle) : Prop :=
  ∃ e ∈ events, ∃ h₀ kind ref' h', e.before.handles[ref]? = some h₀ ∧
    e.label.call.allocates = some kind ∧ e.label.result = .ok (.sexp ref') ∧
    e.after.handles[ref']? = some h' ∧ h'.tree = h.tree ∧ h'.node = h.node

/-- **Fresh handles are safe** at the end of a run. -/
structure FreshHandlesSafe (events : List ApiEvent) (w : World) : Prop where
  /-- A handle that is not stale names a live slot, so that reading it does not panic. -/
  live : ∀ ref h tree, w.Receives ref h tree → ∃ n, tree.get h.node = .ok n
  /-- It has kept its node. -/
  held : ∀ ref h tree, w.Receives ref h tree → Held events ref h
  /-- Its slot has not been given to another node. -/
  unshared : ∀ ref h tree, w.Receives ref h tree → ¬ Reallocated events ref h
  /-- The root of every tree is live, and has been the root since the tree was created. -/
  roots : ∀ e ∈ events, ∀ (t : Nat) (tree₀ : Tree), e.after.trees[t]? = some tree₀ →
    tree₀.Live tree₀.root ∧ ∃ tree : Tree, w.trees[t]? = some tree ∧ tree.root = tree₀.root
  /-- Every link of a live node names a live node, so that walking does not panic. -/
  links : w.AllTrees Tree.WellFormed

/-- The handles of `w` persist in `w'`, and those that can be used there can be used in `w`. -/
def World.Precedes (w w' : World) : Prop :=
  ∀ ref h, w.handles[ref]? = some h → ∃ h' : Handle, w'.handles[ref]? = some h' ∧
    h'.tree = h.tree ∧ h'.node = h.node ∧
    ∀ tree', w'.Receives ref h' tree' → ∃ tree, w.Receives ref h tree

/-- A step precedes what it leads to, from an intact world. -/
theorem ApiStep.precedes {l : CallResult} (hstep : ApiStep w l w') (hintact : w.Intact)
    (hoverflow : l.call.NoOverflow w) : w.Precedes w' := by
  intro ref h hh
  rcases hstep.cases with ⟨-, rfl⟩ | ⟨fuel, v, -, heffect⟩
  · exact ⟨h, hh, rfl, rfl, fun tree' hrec => ⟨tree', hrec⟩⟩
  · obtain ⟨h', hh', htree, hnode, -⟩ := heffect.handle_step hh
    exact ⟨h', hh', htree, hnode, fun tree' hrec =>
      heffect.receives_of_after hoverflow
        (hintact.snapshots.handle_reached (List.mem_of_getElem? hh)) hh hrec⟩

/-- Preceding is transitive. -/
theorem World.Precedes.trans {w'' : World} (hfirst : w.Precedes w') (hsecond : w'.Precedes w'') :
    w.Precedes w'' := by
  intro ref h hh
  obtain ⟨h', hh', htree, hnode, hback⟩ := hfirst ref h hh
  obtain ⟨h'', hh'', htree', hnode', hback'⟩ := hsecond ref h' hh'
  refine ⟨h'', hh'', htree'.trans htree, hnode'.trans hnode, fun tree'' hrec => ?_⟩
  obtain ⟨tree', hrec'⟩ := hback' tree'' hrec
  exact hback tree' hrec'

/-- **Fresh handles are safe in every safe run** whose trees have at most as many slots as there are
keys. -/
theorem fresh_handles_of_run (hrun : ApiRun events w) (hsafe : ∀ e ∈ events, e.Safe)
    (hsmall : ∀ e ∈ events, e.after.Small) : FreshHandlesSafe events w := by
  have hevents : ∀ e ∈ events, e.Safe ∧ e.after.Small := fun e he => ⟨hsafe e he, hsmall e he⟩
  have hstep : ∀ (e : ApiEvent) fuel v, e.Safe ∧ e.after.Small → e.before.Intact →
      Effect fuel e.before e.label.call v e.after → e.after.Intact :=
    fun e fuel v he hbefore heffect =>
      heffect.intact hbefore he.1.attaches he.1.overflow he.2
  have hintact : w.Intact := ApiRun.invariant hrun World.intact_empty hstep hevents
  have haround := ApiRun.invariant_around hrun World.intact_empty hstep hevents
  -- what can be used at the end could be used at every earlier state
  have hprecedes : ∀ e ∈ events, e.after.Precedes w := by
    refine Run.since hrun ?_ ?_
    · exact fun e _ ref h hh => ⟨h, hh, rfl, rfl, fun tree' hrec => ⟨tree', hrec⟩⟩
    · intro e he s₀ hs₀ hapi
      exact hs₀.trans (hapi.precedes (haround e he).1 (hsafe e he).overflow)
  constructor
  case live =>
    intro ref h tree hrec
    obtain ⟨n, hn⟩ := Option.isSome_iff_exists.mp (hintact.live hrec)
    exact ⟨n, Slab.index_eq_ok.mpr hn⟩
  case held =>
    intro ref h tree hrec e he h₀ hh₀
    obtain ⟨h', hh', htree, hnode, hback⟩ := hprecedes e he ref h₀ hh₀
    obtain rfl := Option.some.inj (hrec.handle_eq.symm.trans hh')
    obtain ⟨tree₀, hrec₀⟩ := hback tree hrec
    have hlive := (haround e he).2.live hrec₀
    exact ⟨htree.symm, hnode.symm, tree₀, htree ▸ hrec₀.tree_eq, hnode ▸ hlive⟩
  case unshared =>
    rintro ref h tree hrec ⟨e, he, h₀, kind, ref', h', hh₀, hkind, hresult, hh', htree', hnode'⟩
    obtain ⟨hbefore, -⟩ := haround e he
    have hapi := Run.step_of_mem hrun e he
    -- the handle could be used before the allocation, so its slot was taken
    obtain ⟨k, hk, htree, hnode, hback⟩ :=
      ((hapi.precedes hbefore (hsafe e he).overflow).trans (hprecedes e he)) ref h₀ hh₀
    obtain rfl := Option.some.inj (hrec.handle_eq.symm.trans hk)
    obtain ⟨tree₀, hrec₀⟩ := hback tree hrec
    have hlive := hbefore.live hrec₀
    rcases hapi.cases with ⟨⟨err, hraise⟩, -⟩ | ⟨fuel, v, hreturn, heffect⟩
    · rw [hresult] at hraise
      cases hraise
    · rw [hresult] at hreturn
      obtain ⟨hv, k, tree₁, hk', htree₁, hvacant⟩ :=
        heffect.alloc_vacant hbefore.wellFormed (hsmall e he) hkind
      cases hreturn
      cases hv
      obtain rfl := Option.some.inj (hh'.symm.trans hk')
      rw [htree', htree, hrec₀.tree_eq] at htree₁
      cases htree₁
      exact hvacant (by rw [hnode', hnode]; exact hlive)
  case roots =>
    intro e he t tree₀ ht
    exact ⟨((haround e he).2.wellFormed tree₀ (List.mem_of_getElem? ht)).root_live,
      keepsRoots_of_run hrun e he t tree₀ ht⟩
  case links => exact hintact.wellFormed

/-- `fresh_handles_of_run` at a list in a list. -/
theorem fresh_handles_of_run_nested : FreshHandlesSafe eventsNested nested := by
  have hattaches := eventsNested_attachesOnly
    (fun tree parent op child => tree.Live child ∧ child ≠ tree.root ∧ op.Sane tree parent child)
    ⟨rfl, by decide, Tree.not_ancestorOrSelf (by decide) rfl, trivial⟩
  exact fresh_handles_of_run run_nested
    (fun e he => ⟨hattaches e he, eventsNested_noOverflow e he⟩) eventsNested_small

/-! ## A key that is given away twice -/

/-- An empty list, an atom, and `k` more empty lists, none of them attached. -/
def manyLists (k : ℕ) : Tree :=
  Tree.fromRaw ⟨[some Node.newList, some (Node.newAtom (Atom.new "a"))] ++
    List.replicate k (some Node.newList), []⟩ ⟨0⟩

/-- The objects after `t = SExp(); t.new_atom("a")` and `k` calls of `t.new_list()`. -/
def afterNewLists (k : ℕ) : World where
  trees := [manyLists k]
  handles := [⟨0, ⟨0⟩, 0⟩, ⟨0, ⟨1⟩, 0⟩] ++
    (List.range k).map fun i => ⟨0, ⟨UInt32.ofNat (i + 2)⟩, 0⟩
  iters := []

/-- `t.new_atom("a")` after `t = SExp()`. -/
theorem step_newAtom : ApiStep oneList ⟨.newAtom 0 "a", .ok (.sexp 1)⟩ (afterNewLists 0) := ⟨0, rfl⟩

/-- One more `t.new_list()`: its key is the number of slots, as a `u32`. -/
theorem step_newList (k : ℕ) :
    ApiStep (afterNewLists k) ⟨.newList 0, .ok (.sexp (k + 2))⟩ (afterNewLists (k + 1)) := by
  have hlength : (manyLists k).nodes.slots.length = k + 2 := by simp [manyLists, Tree.fromRaw]
  have hcall : call 0 (.newList 0) (afterNewLists k) =
      .ok (.ok (.sexp (afterNewLists k).handles.length),
        { trees := [{ manyLists k with
            nodes := ⟨(manyLists k).nodes.slots ++ [some Node.newList], []⟩ }]
          handles := (afterNewLists k).handles ++
            [⟨0, ⟨UInt32.ofNat (manyLists k).nodes.slots.length⟩, 0⟩]
          iters := [] }) := rfl
  refine ⟨0, ?_⟩
  rw [hcall, hlength]
  simp [afterNewLists, manyLists, Tree.fromRaw, List.replicate_succ', List.range_succ]

/-- A call that does not bump the version meets the condition of safe runs. -/
theorem ApiEvent.Safe.of_not_bumps {e : ApiEvent} (h : e.label.call.bumps = false) : e.Safe := by
  constructor
  · refine Call.attachesOnly_of_none fun hd tree op child hop => ?_
    cases hcall : e.label.call <;> rw [hcall] at hop h <;> cases hop <;> cases h
  · exact .of_not_bumps h

/-- The run with `k` calls of `t.new_list()` is safe. -/
theorem run_newLists (k : ℕ) :
    ∃ events, ApiRun events (afterNewLists k) ∧ ∀ e ∈ events, e.Safe := by
  induction k with
  | zero =>
      refine ⟨_, (Run.nil.cons step_oneList).cons step_newAtom, ?_⟩
      refine List.forall_mem_cons.mpr ⟨.of_not_bumps rfl, ?_⟩
      exact List.forall_mem_singleton.mpr (.of_not_bumps rfl)
  | succ k ih =>
      obtain ⟨events, hrun, hsafe⟩ := ih
      exact ⟨_, hrun.cons (step_newList k),
        List.forall_mem_cons.mpr ⟨.of_not_bumps rfl, hsafe⟩⟩

/-- When the number of slots is `1` as a `u32`, the next list is given the key of the atom. -/
theorem not_safe_of_wrap (k : ℕ) (hk : UInt32.ofNat (k + 2) = 1) :
    ∃ events w, ApiRun events w ∧ (∀ e ∈ events, e.Safe) ∧ ¬ FreshHandlesSafe events w := by
  obtain ⟨events, hrun, hsafe⟩ := run_newLists k
  refine ⟨_, _, hrun.cons (step_newList k),
    List.forall_mem_cons.mpr ⟨.of_not_bumps rfl, hsafe⟩, fun hfresh => ?_⟩
  -- the handle of the atom is not stale
  have hrec : (afterNewLists (k + 1)).Receives 1 ⟨0, ⟨1⟩, 0⟩ (manyLists (k + 1)) :=
    ⟨rfl, rfl, rfl⟩
  have hnew : (afterNewLists (k + 1)).handles[k + 2]? = some ⟨0, ⟨1⟩, 0⟩ := by
    rw [← hk]
    simp [afterNewLists]
  exact hfresh.unshared 1 ⟨0, ⟨1⟩, 0⟩ _ hrec ⟨_, List.mem_cons_self, ⟨0, ⟨1⟩, 0⟩, .list, k + 2,
    ⟨0, ⟨1⟩, 0⟩, rfl, rfl, rfl, hnew, rfl, rfl⟩

/-- **A key is given away twice** in a tree of more than `2 ^ 32` slots: after
`t = SExp(); a = t.new_atom("a")` and `2 ^ 32` calls of `t.new_list()` the last list has the key of
the atom. -/
theorem fresh_handle_shared : ¬ ∀ events w, ApiRun events w → (∀ e ∈ events, e.Safe) →
    FreshHandlesSafe events w := by
  intro hfresh
  obtain ⟨events, w, hrun, hsafe, hunsafe⟩ := not_safe_of_wrap (2 ^ 32 - 1) rfl
  exact hunsafe (hfresh events w hrun hsafe)

end Sexp
