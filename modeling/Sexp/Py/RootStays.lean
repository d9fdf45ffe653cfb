import Sexp.Core.SecureRoot
import Sexp.Py.Runs

/-! # The root over all runs

A handle to the root is never considered stale. That is sound as long as the root stays live, which
holds in every run that never attaches the root, and never names it as the sibling of
`insert_after`: the root of every tree is secure in every state (`root_stays_of_run`). A run that
attaches the root below another list can delete it with that list. -/

namespace Sexp

open Library (Run)

variable {fuel : Nat} {w w' : World} {c : Call} {v : Value} {h : Handle} {tree tree' : Tree}
  {events : List ApiEvent}

/-! ## Writes and created trees -/

/-- **Every write keeps the root secure**, when it does not attach the root or name it as a
sibling. -/
theorem World.Writes.rootSecure (hwrite : w.Writes fuel h tree c tree') (hsecure : tree.RootSecure)
    (hspares : ∀ op child, w.Attaching h tree c op child →
      child ≠ tree.root ∧ op.sibling? ≠ some tree.root)
    (hfits : tree'.nodes.slots.length ≤ 2 ^ 32) : tree'.RootSecure := by
  cases hwrite with
  | cache htext => exact hsecure.of_nodes_eq rfl rfl
  | @value self value n hn hatom =>
      have hlive : (tree.nodes.get h.node).isSome := by rw [hn]; rfl
      have hrewrites := Slab.Rewrites.of_modify (Slab.modify_of_live hlive
        fun n => { n with kind := .atom (Atom.new value) })
      -- another text leaves the links of the node alone
      refine hsecure.of_rewrites rfl hrewrites (fun m hm => ?_) fun id m hm => ?_
      · show Node.Free (if _ then { m with kind := .atom (Atom.new value) } else m)
        split
        · exact hm
        · exact hm
      · show Node.Avoids (if _ then { m with kind := .atom (Atom.new value) } else m) _
        split
        · exact ⟨hm.first, hm.last, hm.previous, hm.next⟩
        · exact hm
  | alloc hc halloc => exact (hsecure.allocated halloc hfits).1
  | attach hop hrun =>
      obtain ⟨hchild, hsibling⟩ := hspares _ _ hop
      exact Attachment.run_rootSecure hsecure hchild hsibling hrun
  | remove hc hne hremove => exact (hsecure.remove hne hremove).of_nodes_eq rfl rfl

/-- **Every created tree has a secure root**, when the trees that exist have. -/
theorem World.Creates.rootSecure (hcreate : w.Creates fuel c tree)
    (hsecure : w.AllTrees Tree.RootSecure) (hfits : tree.nodes.slots.length ≤ 2 ^ 32) :
    tree.RootSecure := by
  refine hcreate.of_sources hsecure (fun hnew => ?_) (fun s hparse => ?_)
    fun source n _ hne hclone => ?_
  · cases hnew
    exact .of_wellFormed (wellFormed_single .list) ((represents_single .list).parentOf_eq _)
  · obtain ⟨hwf, hroot⟩ := parse_wellFormed hparse hfits
    exact .of_wellFormed hwf hroot
  · exact (cloneSubtree_grown hne hclone).rootSecure hfits

/-! ## Runs -/

/-- **The condition on an event**: it does not attach the root, or name it as a sibling. -/
structure ApiEvent.SparesRoot (e : ApiEvent) : Prop where
  /-- The child is not the root, and neither is the sibling. -/
  attaches : e.label.call.AttachesOnly
    (fun tree _ op child => child ≠ tree.root ∧ op.sibling? ≠ some tree.root) e.before
  /-- There are keys for all slots. -/
  small : e.after.Small

/-- The trees of `w` have the same roots in `w'`. -/
def World.KeepsRoots (w w' : World) : Prop :=
  ∀ (t : Nat) (tree : Tree), w.trees[t]? = some tree →
    ∃ tree' : Tree, w'.trees[t]? = some tree' ∧ tree'.root = tree.root

/-- Every step keeps the roots. -/
theorem ApiStep.keepsRoots {l : CallResult} (hstep : ApiStep w l w') : w.KeepsRoots w' := by
  intro t tree ht
  rcases hstep.cases with ⟨-, rfl⟩ | ⟨fuel, v, -, heffect⟩
  · exact ⟨tree, ht, rfl⟩
  · obtain ⟨tree', ht', rfl | ⟨self, h, -, -, -, hwrite⟩⟩ := heffect.tree_step ht
    · exact ⟨_, ht', rfl⟩
    · exact ⟨tree', ht', hwrite.root_eq⟩

/-- **Roots never change** in a run. -/
theorem keepsRoots_of_run (hrun : ApiRun events w) : ∀ e ∈ events, e.after.KeepsRoots w := by
  refine Run.since hrun ?_ ?_
  · exact fun e _ t tree ht => ⟨tree, ht, rfl⟩
  · intro e _ s₀ hsince hstep t tree ht
    obtain ⟨tree₁, ht₁, hroot₁⟩ := hsince t tree ht
    obtain ⟨tree₂, ht₂, hroot₂⟩ := ApiStep.keepsRoots hstep t tree₁ ht₁
    exact ⟨tree₂, ht₂, hroot₂.trans hroot₁⟩

/-- The roots are secure in every run that spares them. -/
theorem rootSecure_of_run (hrun : ApiRun events w) (hspares : ∀ e ∈ events, e.SparesRoot) :
    w.AllTrees Tree.RootSecure := by
  refine ApiRun.forall_tree hrun ?_ ?_ hspares
  · intro e fuel self h tree tree' he hself hrec hwrite hmem hsecure
    exact hwrite.rootSecure hsecure
      (fun op child hop => he.attaches self h tree op child hself hrec hop) (he.small tree' hmem)
  · intro e fuel tree he hsecure hcreate hmem
    exact hcreate.rootSecure hsecure (he.small tree hmem)

/-- **The root stays the root.** In every run that attaches no root and names none as a sibling: the
root of every tree is a live node without parent and siblings, it has been the root since the tree
was created, and no handle to it is stale. -/
theorem root_stays_of_run (hrun : ApiRun events w) (hspares : ∀ e ∈ events, e.SparesRoot) :
    (w.AllTrees fun tree => ∃ n, tree.nodes.get tree.root = some n ∧ n.Free) ∧
      (∀ e ∈ events, e.after.KeepsRoots w) ∧
      ∀ ref h tree, w.handles[ref]? = some h → w.trees[h.tree]? = some tree →
        h.node = tree.root → w.Receives ref h tree ∧ tree.Live h.node := by
  have hsecure := rootSecure_of_run hrun hspares
  refine ⟨fun tree htree => (hsecure tree htree).root_free, keepsRoots_of_run hrun, ?_⟩
  intro ref h tree hself htree hroot
  refine ⟨⟨hself, htree, ?_⟩, ?_⟩
  · simp [Handle.isStale, hroot]
  · rw [hroot]
    exact (hsecure tree (List.mem_of_getElem? htree)).live

/-- `root_stays_of_run` at a list in a list. -/
theorem root_stays_of_run_nested :
    (∃ n, nestedLists.nodes.get nestedLists.root = some n ∧ n.Free) ∧
      nestedLists.Live nestedLists.root := by
  have hattaches := eventsNested_attachesOnly
    (fun tree _ op child => child ≠ tree.root ∧ op.sibling? ≠ some tree.root)
    ⟨by decide, by decide⟩
  obtain ⟨hfree, -, huse⟩ := root_stays_of_run run_nested
    fun e he => ⟨hattaches e he, eventsNested_small e he⟩
  exact ⟨hfree nestedLists List.mem_cons_self, (huse 0 ⟨0, ⟨0⟩, 1⟩ nestedLists rfl rfl rfl).2⟩

/-! ## A run that deletes the root -/

/-- `looseLists` with the root below the other list. -/
def rootBelow : Tree where
  nodes :=
    ⟨[some { Node.newList with parent := some ⟨1⟩ },
      some { Node.newList with firstChild := some ⟨0⟩, lastChild := some ⟨0⟩, childCount := 1 }],
      []⟩
  root := ⟨0⟩
  version := 1
  bare := false
  reprCache := none

/-- The objects after `l.append(t)` in `twoLists`. -/
def afterAppendRoot : World := ⟨[rootBelow], [⟨0, ⟨0⟩, 0⟩, ⟨0, ⟨1⟩, 1⟩], []⟩

/-- `l.append(t)` in `twoLists`. -/
theorem step_afterAppendRoot : ApiStep twoLists ⟨.append 1 0, .ok .none⟩ afterAppendRoot := ⟨0, rfl⟩

/-- A tree without nodes. -/
def noNodes : Tree where
  nodes := ⟨[none, none], [0, 1]⟩
  root := ⟨0⟩
  version := 2
  bare := false
  reprCache := none

/-- The objects after `l.remove()`. -/
def afterRemoveRoot : World := ⟨[noNodes], [⟨0, ⟨0⟩, 0⟩, ⟨0, ⟨1⟩, 1⟩], []⟩

/-- `l.remove()` after it. -/
theorem step_afterRemoveRoot : ApiStep afterAppendRoot ⟨.remove 1, .ok .none⟩ afterRemoveRoot :=
  ⟨3, rfl⟩

/-- **The root can be deleted.** After `t = SExp(); l = t.new_list(); l.append(t); l.remove()` the
root of the tree is not live. -/
theorem root_deleted : ¬ ∀ events w, ApiRun events w →
    w.AllTrees fun tree => ∃ n, tree.nodes.get tree.root = some n ∧ n.Free := by
  intro hstays
  obtain ⟨n, hn, -⟩ := hstays _ _ ((run_twoLists.cons step_afterAppendRoot).cons
    step_afterRemoveRoot) noNodes List.mem_cons_self
  cases hn

end Sexp
