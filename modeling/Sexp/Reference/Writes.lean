import Sexp.Parse.RoundTrip
import Sexp.Reference.Reads
import Sexp.Reference.Trees

/-! # Calls that write

Every call that changes or creates a tree does what the reference store does, when it is calm
(`ApiEvent.Calm`): what it attaches is live and sane, it removes nothing that the root is below, and
neither a version nor a slab overflows. -/

namespace Sexp

open Library (Answers Form OrderedForest insertRight)
open Reference (Content Document Store Request Place Ref)

variable {w w' : World} {self ref other child after : HandleRef} {h x a : Handle}
  {tree tree' : Tree} {c : Call} {r : Except PyErr Value} {e : PyErr} {fuel : ℕ}

/-- Mapping over methods that do the same. -/
theorem PyM.map_congr {α β : Type} {m m' : PyM α} (hm : m w = m' w) (g : α → β) :
    (g <$> m) w = (g <$> m') w := by
  change PyM.bind m _ w = PyM.bind m' _ w
  rw [PyM.bind, PyM.bind, hm]

/-- The steps of the store are about the two worlds of a calm event. -/
theorem ApiEvent.Calm.wellFormed (hcalm : ApiEvent.Calm ⟨w, ⟨c, r⟩, w'⟩) (hsound : w.Sound)
    (hself : c.self? = some self) (hrec : w.Receives self h tree)
    (hwrite : w.Writes fuel h tree c tree') (hafter : tree' ∈ w'.trees) : tree'.WellFormed :=
  hwrite.wellFormed (hsound.wellFormed tree (List.mem_of_getElem? hrec.tree_eq))
    (fun op child hop _ => (hcalm.attaches self h tree op child hself hrec hop).2)
    (hcalm.removes self h tree hself hrec) (hcalm.small tree' hafter)

/-- **A write that bumps the version** gives the document another structure. -/
theorem World.Writes.store_restructured (hwrite : w.Writes fuel h tree c tree')
    (hcalm : ApiEvent.Calm ⟨w, ⟨c, r⟩, w'⟩) (hsound : w.Sound) (hself : c.self? = some self)
    (hrec : w.Receives self h tree) (hafter : tree' ∈ w'.trees) (hbumps : c.bumps = true) :
    (w.refreshed self h tree').store = w.store.restructure self h.tree tree'.document := by
  have hwf' := hcalm.wellFormed hsound hself hrec hwrite hafter
  have hversion := hwrite.version_eq
  rw [if_pos hbumps] at hversion
  refine World.store_refreshed_bump hsound.snapshots hrec hwf' ?_
  rw [hversion]
  exact version_lt_succ (hcalm.overflow self h tree hself hrec hbumps)

/-! ## Writing an atom, and allocating -/

/-- Assigning a text. -/
theorem setValue_follows (hsound : w.Sound) (hrec : w.Receives self h tree) (text : String) :
    w.Follows (.setValue self text) := by
  obtain ⟨hwf, n, hn, -⟩ := hsound.receiver hrec
  have hget : tree.get h.node = .ok n := Slab.index_eq_ok.mpr hn
  have htext : tree.document.atomText h.node = n.kind.content.text := by
    rw [Document.atomText, hwf.document_label hn]
    rfl
  rcases hkind : n.kind with value | _
  · have hmodify := Slab.modify_of_live (hsound.live hrec)
      fun n => { n with kind := .atom (Atom.new text) }
    have hset : Answers (fun _ => SExp.setValue self text w)
        (.ok (), w.refreshed self h (tree.withValue h.node text)) := by
      refine SExp.withTreeMut_answers hrec (.bind (.const fun _ => hget) (.const fun _ => ?_))
      simp only [Node.isAtom, hkind, Bool.not_true, Bool.false_eq_true, if_false, hmodify]
      rfl
    obtain ⟨hwf', hdocument⟩ := hwf.document_withValue (hsound.live hrec) text
    refine ⟨_, _, PyM.map_answers hset fun _ => Value.none, ?_⟩
    have hstore : (w.refreshed self h (tree.withValue h.node text)).store =
        w.store.setDoc h.tree (tree.document.put h.node (.atom text)) := by
      rw [← hdocument]
      exact World.store_refreshed_quiet hrec rfl rfl fun c => by rw [hdocument]; rfl
    rw [hstore]
    refine .perform (q := .assign ⟨h.tree, tree.document, h.node⟩ text) ?_ .assign
    simp [Store.plan, World.use_of_receives hrec, htext, hkind, NodeType.content, Content.text,
      pure, Except.pure]
  · have hset : Answers (fun _ => SExp.setValue self text w)
        (.error (.typeError "cannot set value on a list node"), w) := by
      refine SExp.withTreeMut_raises hrec (.bind (.const fun _ => hget) (.const fun _ => ?_))
      simp only [Node.isAtom, hkind, Bool.not_false, if_true]
      rfl
    refine .refuse (PyM.map_answers hset fun _ => Value.none) ?_
    simp [Store.plan, World.use_of_receives hrec, htext, hkind, NodeType.content, Content.text]

/-- **Allocating a node.** -/
theorem alloc_step (kind : NodeType) {alloc : Tree → Exec (Tree × NodeId)} (hsound : w.Sound)
    (hrec : w.Receives self h tree) (hstep : ApiStep w ⟨c, r⟩ w') (hsmall : w'.Small)
    (hplan : w.store.plan c = .ok (.alloc ⟨h.tree, tree.document, h.node⟩ kind.content))
    (halloc : ∀ tree tree' id, alloc tree = .ok (tree', id) → tree.Allocated tree' id kind)
    (htotal : ∃ tree' id, alloc tree = .ok (tree', id))
    (hcall : ∀ fuel, call fuel c = Value.sexp <$> (do
      let (id, version) ← SExp.withTreeMut self fun tree _ => do
        let (tree, id) ← alloc tree
        return ((.ok (id, tree.version) : Except PyErr (NodeId × UInt64)), tree)
      SExp.share self id version)) : w.store.Step ⟨c, r⟩ w'.store := by
  obtain ⟨hwf, -⟩ := hsound.receiver hrec
  obtain ⟨tree', id, hok⟩ := htotal
  have hallocated := halloc tree tree' id hok
  have htree' : (w.refreshed self h tree').trees[h.tree]? = some tree' :=
    World.trees_refreshed hrec tree'
  -- the node is allocated, and a handle to it created
  have hanswers : Answers (fun fuel => call fuel c w) (.ok (.sexp w.handles.length),
      (w.refreshed self h tree').extend [⟨h.tree, id, tree'.version⟩] []) := by
    simp only [hcall]
    exact PyM.map_answers (r := .ok w.handles.length)
      (.const fun _ => SExp.alloc_apply hrec hok) Value.sexp
  obtain ⟨rfl, rfl⟩ := hstep.eq_of_answers hanswers
  have hfits := hsmall tree' (List.mem_of_getElem? htree')
  obtain ⟨hnew, hdocument⟩ := hallocated.document hwf hfits
  have hversion : tree'.version = tree.version := by rw [hallocated.frame]
  have hroot : tree'.root = tree.root := by rw [hallocated.frame]
  rw [World.store_handle htree',
    World.store_refreshed_quiet hrec hversion hroot (fun c => by rw [hdocument]; rfl), hdocument]
  have hperform := Store.Step.perform hplan (.alloc hnew)
  rwa [Store.value, World.length_refs_store] at hperform

/-! ## Attaching -/

/-- **Attaching a node.** -/
theorem attach_step {op : Attachment} {node : NodeId} (hsound : w.Sound)
    (hcalm : ApiEvent.Calm ⟨w, ⟨c, r⟩, w'⟩) (hself : c.self? = some self)
    (hrec : w.Receives self h tree) (hstep : ApiStep w ⟨c, r⟩ w') (hbumps : c.bumps = true)
    (hop : w.Attaching h tree c op node)
    (hplan : w.store.plan c =
      .ok (.attach self ⟨h.tree, tree.document, h.node⟩ node (op.put node)))
    (hcall : ∀ tree', Answers (fun fuel => op.run fuel tree h.node node) tree' →
      Answers (fun fuel => call fuel c w) (.ok .none, w.refreshed self h tree')) :
    w.store.Step ⟨c, r⟩ w'.store := by
  obtain ⟨hwf, -⟩ := hsound.receiver hrec
  obtain ⟨hlive, hbelow, hfits⟩ := hcalm.attaches self h tree op node hself hrec hop
  obtain ⟨tree', hrun, -, hmoved⟩ :=
    op.run_consistent hwf.toConsistent (hsound.live hrec) hlive hbelow hfits
  obtain ⟨rfl, rfl⟩ := hstep.eq_of_answers (hcall tree' hrun)
  obtain ⟨fuel, hfuel⟩ := hrun.exists_fuel
  have hwrite : w.Writes fuel h tree c tree' := .attach hop hfuel
  have hafter := List.mem_of_getElem? (World.trees_refreshed hrec tree')
  rw [hwrite.store_restructured hcalm hsound hself hrec hafter hbumps]
  exact .perform hplan (.attach (hmoved.document hwf
    (hcalm.wellFormed hsound hself hrec hwrite hafter) hwrite.root_eq hwrite.bare_eq))

/-- Another reference to the document of the receiver. -/
theorem World.mate_eq (hh : w.handles[self]? = some h) (hx : w.handles[child]? = some x) :
    w.store.mate self child = if h.tree = x.tree then .ok (x.ref w.trees)
      else .error (.valueError "node belongs to a different tree") := by
  rw [Store.mate, World.store_refs_of_handle hh, World.store_refs_of_handle hx]
  rfl

/-- **A call that takes a node of its tree**: it is a step of the store, when it is one for a child
of the tree of the receiver. -/
theorem mates_step {α : Type} {g : ℕ → Handle → Handle → PyM α} {f : α → Value}
    (hstep : ApiStep w ⟨c, r⟩ w')
    (hcall : ∀ fuel, call fuel c = f <$> (do
      let h ← PyM.handle self
      let x ← PyM.handle child
      assertSameTree h.tree x.tree
      g fuel h x))
    (hrefuse : ∀ e, w.store.mate self child = .error e → w.store.plan c = .error e)
    (hmates : ∀ h x, w.handles[self]? = some h → w.handles[child]? = some x → h.tree = x.tree →
      w.store.Step ⟨c, r⟩ w'.store) : w.store.Step ⟨c, r⟩ w'.store := by
  obtain ⟨fuel, hfuel⟩ := id hstep
  dsimp only at hfuel
  rw [hcall] at hfuel
  obtain ⟨_, hmethod⟩ := PyM.exists_of_map hfuel
  obtain ⟨h, hh, hmethod⟩ := PyM.exists_of_handle_bind hmethod
  obtain ⟨x, hx, -⟩ := PyM.exists_of_handle_bind hmethod
  by_cases hsame : h.tree = x.tree
  · exact hmates h x hh hx hsame
  · refine hstep.store_step (.refuse ?_ (hrefuse _ ((World.mate_eq hh hx).trans (if_neg hsame))))
    simp only [hcall]
    refine PyM.map_answers (r := .error _) (.const fun fuel => ?_) f
    rw [PyM.bind_of_ok (PyM.handle_apply hh), PyM.bind_of_ok (PyM.handle_apply hx),
      PyM.bind_of_error (SExp.assertSameTree_raise hsame w)]

/-- **A call that attaches a node of its tree**, when it runs the operation on every receiver. -/
theorem attach_mate_step (op : Attachment) (hsound : w.Sound)
    (hcalm : ApiEvent.Calm ⟨w, ⟨c, r⟩, w'⟩) (hself : c.self? = some self)
    (hstep : ApiStep w ⟨c, r⟩ w') (hbumps : c.bumps = true) (hh : w.handles[self]? = some h)
    (hcall : ∀ fuel, call fuel c w = ((fun _ => Value.none) <$> SExp.withTreeMut self
      fun tree node => do
        return ((.ok () : Except PyErr Unit), ← op.run fuel tree node x.node)) w)
    (hop : ∀ tree, w.Receives self h tree → w.Attaching h tree c op x.node)
    (hplan : w.store.plan c = do
      let p ← w.store.use self
      return .attach self p x.node (op.put x.node)) : w.store.Step ⟨c, r⟩ w'.store := by
  obtain ⟨tree, ht, hrec | hstale⟩ := hsound.snapshots.receives_or_stale hh
  · refine attach_step hsound hcalm hself hrec hstep hbumps (hop tree hrec) ?_ fun tree' hrun => ?_
    · rw [hplan, World.use_of_receives hrec]
      rfl
    · simp only [hcall]
      refine PyM.map_answers (r := .ok ()) (SExp.withTreeMut_answers hrec ?_) _
      exact .bind hrun (.const fun _ => rfl)
  · refine hstep.store_step (.refuse (e := staleError) (.const fun fuel => ?_) ?_)
    · rw [hcall]
      exact PyM.bind_of_error (SExp.withTreeMut_of_stale hh ht hstale)
    · rw [hplan, World.use_of_stale hh ht hstale]
      rfl

/-- `append`. -/
theorem append_step (hsound : w.Sound) (hcalm : ApiEvent.Calm ⟨w, ⟨.append self child, r⟩, w'⟩)
    (hstep : ApiStep w ⟨.append self child, r⟩ w') :
    w.store.Step ⟨.append self child, r⟩ w'.store := by
  refine mates_step hstep (fun fuel => rfl) (fun e he => by rw [Store.plan, he]; rfl)
    fun h x hh hx hsame => ?_
  refine attach_mate_step .append hsound hcalm rfl hstep rfl hh (fun fuel => ?_)
    (fun _ _ => .append hx hsame) ?_
  · exact PyM.map_congr (SExp.sameTree_apply hh hx hsame _) _
  · rw [Store.plan, World.mate_eq hh hx, if_pos hsame]
    rfl

/-- `prepend`. -/
theorem prepend_step (hsound : w.Sound) (hcalm : ApiEvent.Calm ⟨w, ⟨.prepend self child, r⟩, w'⟩)
    (hstep : ApiStep w ⟨.prepend self child, r⟩ w') :
    w.store.Step ⟨.prepend self child, r⟩ w'.store := by
  refine mates_step hstep (fun fuel => rfl) (fun e he => by rw [Store.plan, he]; rfl)
    fun h x hh hx hsame => ?_
  refine attach_mate_step .prepend hsound hcalm rfl hstep rfl hh (fun fuel => ?_)
    (fun _ _ => .prepend hx hsame) ?_
  · exact PyM.map_congr (SExp.sameTree_apply hh hx hsame _) _
  · rw [Store.plan, World.mate_eq hh hx, if_pos hsame]
    rfl

/-- `insert_after` with `None`. -/
theorem insertFirst_step (hsound : w.Sound)
    (hcalm : ApiEvent.Calm ⟨w, ⟨.insertAfter self none child, r⟩, w'⟩)
    (hstep : ApiStep w ⟨.insertAfter self none child, r⟩ w') :
    w.store.Step ⟨.insertAfter self none child, r⟩ w'.store := by
  refine mates_step hstep (fun fuel => rfl) (fun e he => by rw [Store.plan, he]; rfl)
    fun h x hh hx hsame => ?_
  refine attach_mate_step (.insertAfter none) hsound hcalm rfl hstep rfl hh (fun fuel => ?_)
    (fun _ _ => .insertFirst hx hsame) ?_
  · exact PyM.map_congr (SExp.sameTree_apply hh hx hsame _) _
  · rw [Store.plan, World.mate_eq hh hx, if_pos hsame]
    rfl

/-- `insert_after` with a sibling. -/
theorem insertBehind_step (hsound : w.Sound)
    (hcalm : ApiEvent.Calm ⟨w, ⟨.insertAfter self (some after) child, r⟩, w'⟩)
    (hstep : ApiStep w ⟨.insertAfter self (some after) child, r⟩ w') :
    w.store.Step ⟨.insertAfter self (some after) child, r⟩ w'.store := by
  refine mates_step hstep (fun fuel => rfl) (fun e he => by rw [Store.plan, he]; rfl)
    fun h x hh hx hsame => ?_
  -- the rest of the call, once the child has passed its check
  have hcall : ∀ fuel, call fuel (.insertAfter self (some after) child) w =
      ((fun _ => Value.none) <$> (SExp.afterHandle h.tree (some after) >>= fun after =>
        SExp.withTreeMut self fun tree node => do
          if after.any (·.isStale tree) then return (.error staleError, tree)
          else return ((.ok () : Except PyErr Unit),
            ← Sexp.insertAfter fuel tree node (after.map Handle.node) x.node))) w := fun fuel =>
    PyM.map_congr (SExp.sameTree_apply hh hx hsame _) _
  rcases ha : w.handles[after]? with _ | a
  · obtain ⟨fuel, hfuel⟩ := hstep
    have hfault : SExp.afterHandle h.tree (some after) w = .error .noObject :=
      PyM.handle_bind_of_none ha _
    rw [hcall] at hfuel
    obtain ⟨_, hrest⟩ := PyM.exists_of_map hfuel
    rw [PyM.bind_of_fault hfault] at hrest
    cases hrest
  have hmate := World.mate_eq hh ha
  by_cases hsame' : h.tree = a.tree
  · have hafter := SExp.afterHandle_apply ha hsame'
    have hplan : w.store.plan (.insertAfter self (some after) child) = (do
        let p ← w.store.use self
        if (a.ref w.trees).valid then
          return .attach self p x.node (insertRight a.node x.node)
        else .error staleError) := by
      rw [Store.plan, World.mate_eq hh hx, if_pos hsame, Store.mate?, hmate, if_pos hsame']
      rfl
    obtain ⟨tree, ht, hrec | hstale⟩ := hsound.snapshots.receives_or_stale hh
    · have hvalid : (a.ref w.trees).valid = !a.isStale tree := by
        rw [World.ref_eq (hsame' ▸ ht)]
      rw [World.use_of_receives hrec, Library.ok_bind, hvalid] at hplan
      cases hfresh : a.isStale tree with
      | true =>
          rw [hfresh] at hplan
          refine hstep.store_step (.refuse ?_ hplan)
          simp only [hcall]
          refine PyM.map_answers (r := .error _) ?_ _
          simp only [PyM.bind_of_ok hafter]
          refine SExp.withTreeMut_raises hrec (.const fun _ => ?_)
          rw [Option.any_some, hfresh, if_pos rfl]
          rfl
      | false =>
          rw [hfresh] at hplan
          refine attach_step hsound hcalm rfl hrec hstep rfl
            (.insertBehind hx hsame ha hsame' hfresh) hplan fun tree' hrun => ?_
          simp only [hcall]
          refine PyM.map_answers (r := .ok ()) ?_ _
          simp only [PyM.bind_of_ok hafter]
          refine SExp.withTreeMut_answers hrec ?_
          simp only [Option.any_some, hfresh, Bool.false_eq_true, if_false]
          exact .bind hrun (.const fun _ => rfl)
    · rw [World.use_of_stale hh ht hstale] at hplan
      refine hstep.store_step (.refuse (e := staleError) (.const fun fuel => ?_) hplan)
      rw [hcall]
      refine PyM.bind_of_error ?_
      rw [PyM.bind_of_ok hafter]
      exact SExp.withTreeMut_of_stale hh ht hstale
  · refine hstep.store_step (.refuse (e := .valueError "node belongs to a different tree")
      (.const fun fuel => ?_) ?_)
    · rw [hcall]
      exact PyM.bind_of_error (PyM.bind_of_error (SExp.afterHandle_raise ha hsame'))
    · rw [Store.plan, World.mate_eq hh hx, if_pos hsame, Store.mate?, hmate, if_neg hsame']
      rfl

/-! ## Removing -/

/-- `remove`. -/
theorem remove_step (hsound : w.Sound) (hcalm : ApiEvent.Calm ⟨w, ⟨.remove self, r⟩, w'⟩)
    (hstep : ApiStep w ⟨.remove self, r⟩ w') : w.store.Step ⟨.remove self, r⟩ w'.store := by
  refine hstep.store_step_of_receiver hsound.snapshots
    (fun fuel => (Consults.withTreeMut _).map _) (fun he => by rw [Store.plan, he]; rfl)
    fun h tree hrec => ?_
  obtain ⟨hwf, -⟩ := hsound.receiver hrec
  by_cases hroot : h.node = tree.root
  · have hraises : Answers (fun fuel => SExp.remove fuel self w)
        (.error (.valueError "cannot remove the root node"), w) :=
      SExp.withTreeMut_raises hrec (.const fun _ => by rw [if_pos hroot]; rfl)
    refine hstep.store_step (.refuse (PyM.map_answers hraises _) ?_)
    simp [Store.plan, World.use_of_receives hrec, hroot]
  · obtain ⟨tree₁, hremove, -, hdeleted, -, -⟩ :=
      remove_consistent hwf.toConsistent (hsound.live hrec)
    have hreturns : Answers (fun fuel => SExp.remove fuel self w)
        (.ok (), w.refreshed self h tree₁.bumpVersion) := by
      refine SExp.withTreeMut_answers hrec ?_
      simp only [if_neg hroot]
      exact .bind hremove (.const fun _ => rfl)
    obtain ⟨rfl, rfl⟩ := hstep.eq_of_answers (PyM.map_answers hreturns fun _ => Value.none)
    obtain ⟨fuel, hfuel⟩ := hremove.exists_fuel
    have hwrite : w.Writes fuel h tree (.remove self) tree₁.bumpVersion :=
      .remove rfl hroot hfuel
    have hafter := List.mem_of_getElem? (World.trees_refreshed hrec tree₁.bumpVersion)
    rw [hwrite.store_restructured hcalm hsound rfl hrec hafter rfl]
    refine .perform (q := .remove self ⟨h.tree, tree.document, h.node⟩) ?_
      (.remove (Tree.Deleted.document hdeleted hwf
        (hcalm.wellFormed hsound rfl hrec hwrite hafter) hwrite.root_eq hwrite.bare_eq))
    simp [Store.plan, World.use_of_receives hrec, hroot, pure, Except.pure]

end Sexp
