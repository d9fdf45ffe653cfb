import Sexp.Py.Cache
import Sexp.Py.Determinism
import Sexp.Reference.Abstraction

/-! # Calls that read

Every call that changes no tree does what the reference store does: it is refused alike, and else
gives the same value and creates handles and iterators where the store creates references and
cursors. -/

namespace Sexp

open Library (Answers Form OrderedForest)
open Reference (Content Document Store Request Place)

variable {w w' : World} {self ref other : HandleRef} {h o : Handle} {tree : Tree} {n : Node}
  {c : Call} {r : Except PyErr Value} {e : PyErr}

/-! ## Looking up the receiver -/

/-- **A method that first looks up its receiver**: it needs one, and raises when it is stale. -/
structure Consults {α : Type} (ref : HandleRef) (m : PyM α) : Prop where
  /-- There is no result without a receiver. -/
  needs : ∀ w, w.handles[ref]? = none → m w = .error .noObject
  /-- A stale receiver raises. -/
  stale : ∀ w h tree, w.handles[ref]? = some h → w.trees[h.tree]? = some tree →
    h.isStale tree = true → m w = .ok (.error staleError, w)

namespace Consults

variable {α β : Type} {m : PyM α}

/-- A method that goes on from its receiver, unless it is stale. -/
theorem receiver (g : Handle → Tree → PyM α) : Consults self (do
    let h ← PyM.handle self
    let tree ← PyM.treeAt h.tree
    if h.isStale tree then PyM.raise staleError else g h tree) where
  needs _ hnone := PyM.handle_bind_of_none hnone _
  stale _ _ _ hh ht hstale := SExp.receiver_of_stale hh ht hstale g

/-- A method that reads its tree. -/
theorem withTree (f : Tree → NodeId → Exec (Except PyErr α)) :
    Consults self (SExp.withTree self f) :=
  receiver _

/-- A method that writes its tree. -/
theorem withTreeMut (f : Tree → NodeId → Exec (Except PyErr α × Tree)) :
    Consults self (SExp.withTreeMut self f) :=
  receiver _

/-- Going on after such a method. -/
theorem bind (hm : Consults self m) (f : α → PyM β) : Consults self (m >>= f) where
  needs w hnone := PyM.bind_of_fault (hm.needs w hnone)
  stale w h tree hh ht hstale := PyM.bind_of_error (hm.stale w h tree hh ht hstale)

/-- Mapping over such a method. -/
theorem map (hm : Consults self m) (g : α → β) : Consults self (g <$> m) := hm.bind _

end Consults

/-! ## The store looks up the same -/

/-- **The place of a receiver.** -/
theorem World.use_of_receives (hrec : w.Receives self h tree) :
    w.store.use self = .ok ⟨h.tree, tree.document, h.node⟩ := by
  have href : h.ref w.trees = ⟨h.tree, h.node, true⟩ := by
    rw [World.ref_eq hrec.tree_eq, hrec.fresh]
    rfl
  rw [Store.use, World.store_refs_of_handle hrec.handle_eq, href]
  simp only [World.store_docs_of_tree hrec.tree_eq]

/-- A stale handle is refused. -/
theorem World.use_of_stale (hh : w.handles[self]? = some h) (ht : w.trees[h.tree]? = some tree)
    (hstale : h.isStale tree = true) : w.store.use self = .error staleError := by
  have href : h.ref w.trees = ⟨h.tree, h.node, false⟩ := by
    rw [World.ref_eq ht, hstale]
    rfl
  rw [Store.use, World.store_refs_of_handle hh, href]

/-- A handle is stale, or is a receiver. -/
theorem World.Snapshots.receives_or_stale (hsnap : w.Snapshots) (hh : w.handles[self]? = some h) :
    ∃ tree, w.trees[h.tree]? = some tree ∧
      (w.Receives self h tree ∨ h.isStale tree = true) := by
  obtain ⟨tree, ht, -⟩ := hsnap.handles h (List.mem_of_getElem? hh)
  rcases hstale : h.isStale tree with _ | _
  · exact ⟨tree, ht, .inl ⟨hh, ht, hstale⟩⟩
  · exact ⟨tree, ht, .inr hstale⟩

/-- The receiver of a sound world is a live node of a well-formed tree, whose document lists its
children. -/
theorem World.Sound.receiver (hsound : w.Sound) (hrec : w.Receives self h tree) :
    tree.WellFormed ∧ ∃ n, tree.nodes.get h.node = some n ∧
      tree.IsChildList h.node n (tree.document.forest.children h.node) := by
  have hwf := hsound.wellFormed tree (List.mem_of_getElem? hrec.tree_eq)
  obtain ⟨n, hn⟩ := Option.isSome_iff_exists.mp (hsound.live hrec)
  exact ⟨hwf, n, hn, hwf.document_children hn⟩

/-! ## Following the store -/

/-- **A call follows the store** when what it answers is a step of the store that the objects stand
for. -/
def World.Follows (w : World) (c : Call) : Prop :=
  ∃ r w', Answers (fun fuel => call fuel c w) (r, w') ∧ w.store.Step ⟨c, r⟩ w'.store

/-- What a call that follows the store does is a step of the store. -/
theorem ApiStep.store_step {l : CallResult} (hstep : ApiStep w l w') (hfollows : w.Follows l.call) :
    w.store.Step l w'.store := by
  obtain ⟨r, w₁, hanswers, hmatch⟩ := hfollows
  obtain ⟨hresult, rfl⟩ := hstep.eq_of_answers hanswers
  obtain ⟨c, _⟩ := l
  subst hresult
  exact hmatch

/-- A call that only gives a value follows a store that looks. -/
theorem World.Follows.look {value : Value}
    (hanswers : Answers (fun fuel => call fuel c w) (.ok value, w))
    (hplan : w.store.plan c = .ok (.look value)) : w.Follows c :=
  ⟨_, w, hanswers, .perform hplan .look⟩

/-- A call that raises follows a store that refuses it. -/
theorem World.Follows.refuse (hanswers : Answers (fun fuel => call fuel c w) (.error e, w))
    (hplan : w.store.plan c = .error e) : w.Follows c :=
  ⟨_, w, hanswers, .refuse hplan⟩

/-- A call that creates a handle follows a store that points at the node. -/
theorem World.Follows.point {t : ℕ} {x : NodeId} (ht : w.trees[t]? = some tree)
    (hanswers : w.ReturnsNode c t tree.version x) (hplan : w.store.plan c = .ok (.point t x)) :
    w.Follows c := by
  refine ⟨_, _, hanswers, ?_⟩
  rw [World.store_handle ht]
  have hstep := Store.Step.perform hplan .point
  rwa [Store.value, World.length_refs_store] at hstep

/-- A call that creates handles follows a store that points at the nodes. -/
theorem World.Follows.points {t : ℕ} {l : List NodeId} (ht : w.trees[t]? = some tree)
    (hanswers : Answers (fun fuel => call fuel c w)
      (.ok (.list ((List.range l.length).map (w.handles.length + ·))),
        w.extend (l.map fun x => ⟨t, x, tree.version⟩) []))
    (hplan : w.store.plan c = .ok (.points t l)) : w.Follows c := by
  refine ⟨_, _, hanswers, ?_⟩
  rw [World.store_handles ht]
  have hstep := Store.Step.perform hplan .points
  rwa [Store.value, World.length_refs_store] at hstep

/-- A call that creates an iterator follows a store that creates a cursor. -/
theorem World.Follows.walk {t : ℕ} {l : List NodeId} (ht : w.trees[t]? = some tree)
    (hl : ∀ x, l.head? = some x → tree.document.forest.onward x = l)
    (hanswers : Answers (fun fuel => call fuel c w)
      (.ok (.iter w.iters.length), w.extend [] [⟨t, l.head?, tree.version⟩]))
    (hplan : w.store.plan c = .ok (.walk t l)) : w.Follows c := by
  refine ⟨_, _, hanswers, ?_⟩
  rw [World.store_iter ht hl]
  have hstep := Store.Step.perform hplan .walk
  rwa [Store.value, World.length_cursors_store] at hstep

/-- **A call that consults its receiver** is a step of the store, when it follows the store on every
receiver and the store refuses it when the receiver is stale. -/
theorem ApiStep.store_step_of_receiver {l : CallResult} (hstep : ApiStep w l w')
    (hsnap : w.Snapshots) (hconsults : ∀ fuel, Consults self (call fuel l.call))
    (hrefuse : w.store.use self = .error staleError → w.store.plan l.call = .error staleError)
    (hreceives : ∀ h tree, w.Receives self h tree → w.store.Step l w'.store) :
    w.store.Step l w'.store := by
  rcases hh : w.handles[self]? with _ | h
  · obtain ⟨fuel, hfuel⟩ := hstep
    rw [(hconsults fuel).needs w hh] at hfuel
    cases hfuel
  · obtain ⟨tree, ht, hrec | hstale⟩ := hsnap.receives_or_stale hh
    · exact hreceives h tree hrec
    · refine hstep.store_step (.refuse (.const fun fuel => ?_) (hrefuse ?_))
      · exact (hconsults fuel).stale w h tree hh ht hstale
      · exact World.use_of_stale hh ht hstale

/-! ## Fields of the node -/

section Reading

variable (hsound : w.Sound) (hrec : w.Receives self h tree)

include hsound hrec

/-- `len`. -/
theorem len_follows : w.Follows (.len self) := by
  obtain ⟨-, n, hn, hl⟩ := hsound.receiver hrec
  refine .look (len_view hrec hn hl) ?_
  rw [Store.plan, World.use_of_receives hrec]
  rfl

/-- `is_atom`. -/
theorem isAtom_follows : w.Follows (.isAtom self) := by
  obtain ⟨hwf, n, hn, -⟩ := hsound.receiver hrec
  have hread : Answers (fun _ => SExp.isAtom self w) (.ok n.isAtom, w) :=
    SExp.withTree_answers hrec
      (.bind (.const fun _ => Slab.index_eq_ok.mpr hn) (.const fun _ => rfl))
  have hatom : (tree.document.atomText h.node).isSome = n.isAtom := by
    rw [Document.atomText, hwf.document_label hn, Node.isAtom]
    cases n.kind <;> rfl
  refine .look (PyM.map_answers hread Value.bool) ?_
  rw [Store.plan, World.use_of_receives hrec, ← hatom]
  rfl

/-- `value`. -/
theorem value_follows : w.Follows (.value self) := by
  obtain ⟨hwf, n, hn, -⟩ := hsound.receiver hrec
  have hget : tree.get h.node = .ok n := Slab.index_eq_ok.mpr hn
  have htext : tree.document.atomText h.node = n.kind.content.text := by
    rw [Document.atomText, hwf.document_label hn]
    rfl
  rcases hkind : n.kind with value | _
  · have hread : Answers (fun _ => SExp.value self w) (.ok value.asStr, w) :=
      SExp.withTree_answers hrec (.bind (.const fun _ => hget) (.const fun _ => by rw [hkind]; rfl))
    refine .look (PyM.map_answers hread Value.str) ?_
    simp [Store.plan, World.use_of_receives hrec, htext, hkind, NodeType.content, Content.text,
      pure, Except.pure]
  · have hread : Answers (fun _ => SExp.value self w)
        (.error (.typeError "list node has no value"), w) :=
      SExp.withTree_answers hrec (.bind (.const fun _ => hget) (.const fun _ => by rw [hkind]; rfl))
    refine .refuse (PyM.map_answers hread Value.str) ?_
    simp [Store.plan, World.use_of_receives hrec, htext, hkind, NodeType.content, Content.text]

/-- `parent`. -/
theorem parent_follows : w.Follows (.parent self) := by
  obtain ⟨hwf, n, hn, -⟩ := hsound.receiver hrec
  have hparent : tree.document.forest.parent h.node = n.parent := by
    rw [hwf.document_parent, Tree.parentOf, hn]
    rfl
  rcases hp : n.parent with _ | q
  · refine .look (parent_none_view hrec hn hp) ?_
    simp [Store.plan, World.use_of_receives hrec, hparent, hp, pure, Except.pure]
  · refine .point hrec.tree_eq (parent_some_view hrec hn hp) ?_
    simp [Store.plan, World.use_of_receives hrec, hparent, hp, pure, Except.pure]

/-! ## The children -/

/-- `head`. -/
theorem head_follows : w.Follows (.head self) := by
  obtain ⟨-, n, hn, hl⟩ := hsound.receiver hrec
  rcases hhead : (tree.document.forest.children h.node).head? with _ | c
  · refine .refuse (head_empty_view hrec hn hl (List.head?_eq_none_iff.mp hhead)) ?_
    simp [Store.plan, World.use_of_receives hrec, Place.children, hhead]
  · refine .point hrec.tree_eq (head_view hrec hn hl hhead) ?_
    simp [Store.plan, World.use_of_receives hrec, Place.children, hhead, pure, Except.pure]

/-- `iter`. -/
theorem iter_follows : w.Follows (.iter self) := by
  obtain ⟨-, n, hn, hl⟩ := hsound.receiver hrec
  have hfirst : Answers (fun _ => do return (.ok (← tree.firstChild h.node) :
      Except PyErr (Option NodeId))) (.ok (tree.document.forest.children h.node).head?) := by
    refine .bind (.const fun _ => SExp.firstChild_of_get hn) (.const fun _ => ?_)
    rw [hl.forward.start_eq]
    rfl
  have hread : Answers (fun _ => SExp.iter self w) (.ok w.iters.length, _) :=
    SExp.read_answers hrec hfirst (SExp.shareIter_apply hrec.handle_eq _ tree.version)
  refine .walk hrec.tree_eq (fun c hc => ?_) (PyM.map_answers hread Value.iter) ?_
  · obtain ⟨l, hl⟩ := List.head?_eq_some_iff.mp hc
    rw [hl]
    exact OrderedForest.onward_of_children (show _ = [] ++ c :: l from hl)
  · rw [Store.plan, World.use_of_receives hrec]
    rfl

/-- `tail`. -/
theorem tail_follows : w.Follows (.tail self) := by
  obtain ⟨-, n, hn, hl⟩ := hsound.receiver hrec
  have hsecond : Answers (fun _ => do return (.ok (← SExp.secondChild tree h.node) :
      Except PyErr (Option NodeId))) (.ok (tree.document.forest.children h.node).tail.head?) :=
    .bind (.const fun _ => SExp.secondChild_eq hn hl) (.const fun _ => rfl)
  have hread : Answers (fun _ => SExp.tail self w) (.ok w.iters.length, _) :=
    SExp.read_answers hrec hsecond (SExp.shareIter_apply hrec.handle_eq _ tree.version)
  refine .walk hrec.tree_eq (fun c hc => ?_) (PyM.map_answers hread Value.iter) ?_
  · obtain ⟨l, hl⟩ := List.head?_eq_some_iff.mp hc
    rw [hl]
    rcases hchildren : tree.document.forest.children h.node with _ | ⟨first, rest⟩
    · rw [hchildren] at hl
      cases hl
    · rw [hchildren, List.tail_cons] at hl
      have hbehind : tree.document.forest.children h.node = [first] ++ c :: l := by
        rw [hchildren, hl, List.singleton_append]
      exact OrderedForest.onward_of_children hbehind
  · rw [Store.plan, World.use_of_receives hrec]
    rfl

/-- An index of machine size. -/
theorem index_follows {index : ℤ} (hmachine : ¬ (index < -(2 ^ 63) ∨ 2 ^ 63 ≤ index)) :
    w.Follows (.getItem self (.int index)) := by
  obtain ⟨-, n, hn, hl⟩ := hsound.receiver hrec
  have hsize : -(2 ^ 63) ≤ index ∧ index < 2 ^ 63 := by omega
  rcases hpick : Reference.pick (tree.document.forest.children h.node) index with _ | c
  · refine .refuse (index_out_view hrec hn hl hsize (Reference.pick_eq_none hpick)) ?_
    rw [Store.plan, if_neg hmachine]
    simp [World.use_of_receives hrec, Place.children, hpick]
  · obtain ⟨j, hj, hc⟩ := Reference.pick_eq_some hpick
    refine .point hrec.tree_eq (index_view hrec hn hl hsize hj hc) ?_
    rw [Store.plan, if_neg hmachine]
    simp [World.use_of_receives hrec, Place.children, hpick, pure, Except.pure]

omit hsound hrec in
/-- What a string key selects, also among atoms that have children. -/
theorem keyed_eq_selects (hwf : tree.WellFormed) (key : String) {x : NodeId} (hx : tree.Live x) :
    SExp.keyed tree key x = .ok (decide (tree.document.Selects key x)) := by
  obtain ⟨m, hm⟩ := Option.isSome_iff_exists.mp hx
  have hl := hwf.document_children hm
  have hfirst : m.firstChild = (tree.document.forest.children x).head? := hl.forward.start_eq
  rw [SExp.keyed, Tree.get, Slab.index_eq_ok.mpr hm, Library.ok_bind, hfirst]
  rcases hchildren : tree.document.forest.children x with _ | ⟨first, rest⟩
  · have hselects : tree.document.Selects key x ↔ tree.atomText x = some key := by
      rw [Document.Selects, hchildren, List.headD_nil, hwf.document_atomText hx]
    simp only [List.head?_nil, SExp.isAtomOf_eq hx, hselects]
  · have hlive : tree.Live first := hl.live first (by rw [hchildren]; exact List.mem_cons_self)
    have hselects : tree.document.Selects key x ↔ tree.atomText first = some key := by
      rw [Document.Selects, hchildren, List.headD_cons, hwf.document_atomText hlive]
    simp only [List.head?_cons, SExp.isAtomOf_eq hlive, hselects]

/-- `self[key]` with a string. -/
theorem key_follows (key : String) : w.Follows (.getItem self (.str key)) := by
  obtain ⟨hwf, n, hn, hl⟩ := hsound.receiver hrec
  have hfind := SExp.findChild_answers hn hl fun c hc => keyed_eq_selects hwf key (hl.live c hc)
  rcases hfound : (tree.document.forest.children h.node).find? fun c =>
    tree.document.Selects key c with _ | c
  · have hchild : Answers (fun fuel => SExp.childByKey fuel tree h.node key)
        (.error (.keyError ("no child '" ++ key ++ "'"))) :=
      .bind hfind (.const fun _ => by rw [hfound]; rfl)
    have hitem : Answers (fun fuel => SExp.getItem fuel self (.str key) w) _ :=
      SExp.read_raises hrec hchild
    refine .refuse (PyM.map_answers hitem Value.ofItem) ?_
    simp [Store.plan, World.use_of_receives hrec, Place.children, hfound]
  · have hchild : Answers (fun fuel => SExp.childByKey fuel tree h.node key) (.ok c) :=
      .bind hfind (.const fun _ => by rw [hfound]; rfl)
    refine .point hrec.tree_eq (key_view hrec hchild) ?_
    simp [Store.plan, World.use_of_receives hrec, Place.children, hfound, pure, Except.pure]

/-- `self[start:stop:step]`. -/
theorem slice_follows (start stop step : Option ℤ) :
    w.Follows (.getItem self (.slice start stop step)) := by
  obtain ⟨-, n, hn, hl⟩ := hsound.receiver hrec
  rcases hplaces : SExp.sliceIndices (tree.document.forest.children h.node).length start stop step
    with _ | places
  · have hcollect := ChildIter.collect_answers hl.forward hl.live
    have hchildren : Answers (fun fuel => SExp.childrenAt fuel tree h.node (.slice start stop step))
        (.error (.valueError "slice step cannot be zero")) := by
      refine .bind (.const fun _ => ChildIter.new_eq hn) (.bind hcollect (.const fun _ => ?_))
      simp only [hplaces]
      rfl
    have hitem : Answers (fun fuel => SExp.getItem fuel self (.slice start stop step) w) _ :=
      SExp.read_raises hrec hchildren
    refine .refuse (PyM.map_answers hitem Value.ofItem) ?_
    simp [Store.plan, World.use_of_receives hrec, Place.children, hplaces]
  · have hitem : Answers (fun fuel => SExp.getItem fuel self (.slice start stop step) w) _ :=
      SExp.read_answers hrec (SExp.childrenAt_slice hn hl hplaces)
        (PyM.map_eq_ok.mpr ⟨_, SExp.shareAll_apply hrec.handle_eq _ tree.version, rfl⟩)
    refine .points hrec.tree_eq (PyM.map_answers hitem Value.ofItem) ?_
    simp [Store.plan, World.use_of_receives hrec, Place.children, hplaces, pure, Except.pure]

/-- `self[key]` with an object that no list takes as an index. -/
theorem object_follows (typeName : String) : w.Follows (.getItem self (.object typeName)) := by
  obtain ⟨-, n, hn, hl⟩ := hsound.receiver hrec
  have hcollect := ChildIter.collect_answers hl.forward hl.live
  have hchildren : Answers (fun fuel => SExp.childrenAt fuel tree h.node (.object typeName))
      (.error (.typeError ("list indices must be integers or slices, not " ++ typeName))) :=
    .bind (.const fun _ => ChildIter.new_eq hn) (.bind hcollect (.const fun _ => rfl))
  have hitem : Answers (fun fuel => SExp.getItem fuel self (.object typeName) w) _ :=
    SExp.read_raises hrec hchildren
  refine .refuse (PyM.map_answers hitem Value.ofItem) ?_
  simp [Store.plan, World.use_of_receives hrec]

/-! ## Texts and equality -/

/-- `repr`, which may cache a text. -/
theorem repr_follows (hcache : tree.CacheValid) : w.Follows (.repr self) := by
  obtain ⟨hwf, n, hn, hl⟩ := hsound.receiver hrec
  have htext : tree.document.text h.node =
      if tree.bare = true ∧ h.node = tree.root ∧ n.firstChild = none then ""
      else print (tree.document.form h.node) := by
    have hfirst : n.firstChild = none ↔ tree.document.forest.children h.node = [] := by
      rw [hl.forward.start_eq, List.head?_eq_none_iff]
    simp only [Document.text, Tree.document_blank, Tree.document_root, hfirst]
  obtain ⟨w', hrepr, hw'⟩ := SExp.repr_writes hrec hcache
    (uncachedRepr_answers (hwf.document_denotes (hsound.live hrec)) hn)
  -- caching a text changes no document
  have hwritten : ∀ text,
      (w.refreshed self h (tree.setReprCache h.node text)).store = w.store := by
    intro text
    have hdocument : (tree.setReprCache h.node text).document = tree.document :=
      hwf.document_congr rfl rfl rfl
    have hversion : (tree.setReprCache h.node text).version = tree.version := rfl
    refine (World.store_refreshed_quiet hrec hversion rfl fun c => by rw [hdocument]).trans ?_
    rw [hdocument]
    exact Store.setDoc_self (World.store_docs_of_tree hrec.tree_eq)
  have hstore : w'.store = w.store := by
    rcases hw' with rfl | rfl
    · rfl
    · exact hwritten _
  refine ⟨_, w', PyM.map_answers hrepr Value.str, ?_⟩
  rw [hstore, ← htext]
  refine .perform (q := .look (.str (tree.document.text h.node))) ?_ .look
  simp [Store.plan, World.use_of_receives hrec, pure, Except.pure]

end Reading

/-- What `==` does with two handles. -/
theorem eq_apply (hh : w.handles[self]? = some h) (ho : w.handles[other]? = some o)
    (ht : w.trees[h.tree]? = some tree) (ht' : w.trees[o.tree]? = some tree') (fuel : ℕ) :
    SExp.eq fuel self (.sexp other) w =
      if h.isStale tree || o.isStale tree' then .ok (.error staleError, w)
      else PyM.lift (subtreesEqual fuel tree h.node tree' o.node) w := by
  rw [SExp.eq, PyM.bind_of_ok (PyM.handle_apply hh), PyM.bind_of_ok (PyM.handle_apply ho)]
  by_cases hsame : h.tree = o.tree
  · obtain rfl := Option.some.inj ((hsame ▸ ht).symm.trans ht')
    rw [if_pos hsame, PyM.bind_of_ok (PyM.treeAt_apply ht)]
    split <;> rfl
  · rw [if_neg hsame, PyM.bind_of_ok (PyM.treeAt_apply ht)]
    rcases h.isStale tree with _ | _
    · rw [if_neg Bool.false_ne_true, PyM.bind_of_ok (PyM.treeAt_apply ht'), Bool.false_or]
      split <;> rfl
    · rfl

/-- `==` with a handle. -/
theorem eq_step {r : Except PyErr Value} (hstep : ApiStep w ⟨.eq self (.sexp other), r⟩ w')
    (hsound : w.Sound) : w.store.Step ⟨.eq self (.sexp other), r⟩ w'.store := by
  obtain ⟨fuel, hfuel⟩ := id hstep
  obtain ⟨_, hcall⟩ := PyM.exists_of_map hfuel
  obtain ⟨h, hh, hcall⟩ := PyM.exists_of_handle_bind hcall
  obtain ⟨o, ho, -⟩ := PyM.exists_of_handle_bind hcall
  obtain ⟨tree, ht, hself⟩ := hsound.snapshots.receives_or_stale hh
  obtain ⟨tree', ht', hother⟩ := hsound.snapshots.receives_or_stale ho
  refine hstep.store_step ?_
  have happly := eq_apply hh ho ht ht'
  rcases hself with hrec | hstale
  · rcases hother with hrec' | hstale'
    · obtain ⟨hwf, -⟩ := hsound.receiver hrec
      obtain ⟨hwf', -⟩ := hsound.receiver hrec'
      obtain ⟨answer, hequal, hanswer⟩ := subtreesEqual_answers
        (hwf.document_denotes (hsound.live hrec)) (hwf'.document_denotes (hsound.live hrec'))
      have heq : Answers (fun fuel => SExp.eq fuel self (.sexp other) w) (.ok answer, w) := by
        simp only [happly, hrec.fresh, hrec'.fresh, Bool.or_self, if_neg Bool.false_ne_true]
        exact .bind hequal (.const fun _ => rfl)
      refine .look (PyM.map_answers heq Value.bool) ?_
      simp only [Store.plan, World.use_of_receives hrec, World.use_of_receives hrec',
        Library.ok_bind, ← hanswer, Bool.decide_eq_true]
      rfl
    · have heq : Answers (fun fuel => SExp.eq fuel self (.sexp other) w) (.error staleError, w) :=
        .const fun fuel => by rw [happly, hstale', Bool.or_true, if_pos rfl]
      refine .refuse (PyM.map_answers heq Value.bool) ?_
      simp [Store.plan, World.use_of_receives hrec, World.use_of_stale ho ht' hstale']
  · have heq : Answers (fun fuel => SExp.eq fuel self (.sexp other) w) (.error staleError, w) :=
      .const fun fuel => by rw [happly, hstale, Bool.true_or, if_pos rfl]
    refine .refuse (PyM.map_answers heq Value.bool) ?_
    simp [Store.plan, World.use_of_stale hh ht hstale]

/-! ## Membership -/

/-- `in`. -/
theorem contains_step {item : PyArg} {r : Except PyErr Value}
    (hstep : ApiStep w ⟨.contains self item, r⟩ w') (hsound : w.Sound)
    (hrec : w.Receives self h tree) : w.store.Step ⟨.contains self item, r⟩ w'.store := by
  obtain ⟨hwf, n, hn, hl⟩ := hsound.receiver hrec
  cases item with
  | sexp other =>
      obtain ⟨fuel, hfuel⟩ := id hstep
      obtain ⟨_, hcall⟩ := PyM.exists_of_map hfuel
      rw [SExp.contains, SExp.receiver_apply hrec] at hcall
      obtain ⟨o, ho, -⟩ := PyM.exists_of_handle_bind hcall
      have hother := World.store_refs_of_handle ho
      refine hstep.store_step ?_
      by_cases hsame : h.tree = o.tree
      · have hsame' : (w.store.refs[other]?).any (fun r => h.tree = r.doc) = true := by
          simp [hother, Handle.ref, hsame]
        obtain ⟨tree', ht', hother⟩ := hsound.snapshots.receives_or_stale ho
        obtain rfl := Option.some.inj (hrec.tree_eq.symm.trans (hsame ▸ ht'))
        rcases hother with hrec' | hstale'
        · refine .look (contains_view hrec hn hl ho hsame.symm hrec'.fresh) ?_
          simp [Store.plan, World.use_of_receives hrec, Store.holds, hsame',
            World.use_of_receives hrec', Place.children, pure, Except.pure]
          exact decide_eq_decide.mpr Iff.rfl
        · have hcontains : Answers (fun fuel => SExp.contains fuel self (.sexp other) w)
              (.error staleError, w) := by
            refine .const fun fuel => ?_
            rw [SExp.contains, SExp.receiver_apply hrec]
            change (PyM.handle other >>= _) w = _
            rw [PyM.bind_of_ok (PyM.handle_apply ho), if_neg (not_not.mpr hsame), hstale',
              if_pos rfl]
            rfl
          refine .refuse (PyM.map_answers hcontains Value.bool) ?_
          simp [Store.plan, World.use_of_receives hrec, Store.holds, hsame',
            World.use_of_stale ho ht' hstale']
      · have hcontains : Answers (fun fuel => SExp.contains fuel self (.sexp other) w)
            (.ok false, w) := by
          refine .const fun fuel => ?_
          rw [SExp.contains, SExp.receiver_apply hrec]
          change (PyM.handle other >>= _) w = _
          rw [PyM.bind_of_ok (PyM.handle_apply ho), if_pos hsame]
          rfl
        refine .look (PyM.map_answers hcontains Value.bool) ?_
        simp [Store.plan, World.use_of_receives hrec, Store.holds, hother, Handle.ref, hsame, pure,
          Except.pure]
  | str text =>
      have hfind := SExp.findChild_answers hn hl fun c hc => SExp.isAtomOf_eq (hl.live c hc) text
      have hany : ((tree.document.forest.children h.node).find? fun c =>
          decide (tree.atomText c = some text)).isSome =
          (tree.document.forest.children h.node).any fun c =>
            decide (tree.document.atomText c = some text) := by
        rw [Bool.eq_iff_iff, List.find?_isSome, List.any_eq_true]
        refine exists_congr fun c => and_congr_right fun hc => ?_
        rw [hwf.document_atomText (hl.live c hc)]
      have hcontains : Answers (fun fuel => SExp.contains fuel self (.str text) w)
          (.ok ((tree.document.forest.children h.node).any fun c =>
            decide (tree.document.atomText c = some text)), w) := by
        simp only [SExp.contains, SExp.receiver_apply hrec]
        rw [← hany]
        exact .bind (.bind hfind (.const fun _ => rfl)) (.const fun _ => rfl)
      refine hstep.store_step (.look (PyM.map_answers hcontains Value.bool) ?_)
      simp [Store.plan, World.use_of_receives hrec, Store.holds, Place.children, pure, Except.pure]
  | object =>
      have hcontains : Answers (fun fuel => SExp.contains fuel self .object w) (.ok false, w) :=
        .const fun fuel => by
          rw [SExp.contains, SExp.receiver_apply hrec]
          rfl
      refine hstep.store_step (.look (PyM.map_answers hcontains Value.bool) ?_)
      simp [Store.plan, World.use_of_receives hrec, Store.holds, pure, Except.pure]

/-! ## Iterators -/

/-- `next`. -/
theorem next_step {i : IterRef} {r : Except PyErr Value} (hstep : ApiStep w ⟨.next i, r⟩ w')
    (hsound : w.Sound) : w.store.Step ⟨.next i, r⟩ w'.store := by
  rcases hit : w.iters[i]? with _ | ⟨t, next, version⟩
  · obtain ⟨fuel, hfuel⟩ := hstep
    have hnone : call fuel (.next i) w = .error .noObject := by
      rw [call, SExpIter.step]
      exact PyM.bind_of_fault (PyM.bind_of_fault (by rw [PyM.iter, hit]))
    rw [hnone] at hfuel
    cases hfuel
  have hcursor : w.store.cursors[i]? = some (SExpIter.cursor w.trees ⟨t, next, version⟩) := by
    simp [World.store, hit]
  refine hstep.store_step ?_
  rcases next with _ | current
  · refine .look (.const fun fuel => next_ends hit fuel) ?_
    rw [Store.plan, hcursor]
    rfl
  · obtain ⟨tree, (ht : w.trees[t]? = some tree), -, hlive⟩ :=
      hsound.snapshots.iters _ (List.mem_of_getElem? hit) current rfl
    by_cases hversion : tree.version = version
    · obtain ⟨n, hn⟩ := Option.isSome_iff_exists.mp (hlive hversion.symm)
      obtain ⟨ys, honward, hnext, hrest⟩ :=
        (hsound.wellFormed tree (List.mem_of_getElem? ht)).document_onward hn
      have hcurrent : SExpIter.cursor w.trees ⟨t, some current, version⟩ =
          ⟨t, some (current :: ys)⟩ := by
        rw [World.cursor_eq ht rfl, if_pos hversion, honward]
      have hadvanced :
          SExpIter.cursor w.trees ⟨t, tree.nextOf current, version⟩ = ⟨t, some ys⟩ := by
        rw [Tree.nextOf, hn, Option.bind_some, ← hnext]
        rcases ys with _ | ⟨d, ys⟩
        · rfl
        · have hd : SExpIter.cursor w.trees ⟨t, some d, version⟩ =
              ⟨t, if tree.version = version then some (tree.document.forest.onward d) else none⟩ :=
            World.cursor_eq ht rfl
          rw [List.head?_cons, hd, if_pos hversion, hrest d rfl]
      refine ⟨_, _, .const fun fuel => next_yields hit ht hversion (hlive hversion.symm) fuel, ?_⟩
      have hstore : ({ w with iters := w.iters.set i ⟨t, tree.nextOf current, version⟩ }.extend
          [⟨t, current, version⟩] []).store =
          { w.store with cursors := w.store.cursors.set i ⟨t, some ys⟩ }.pointing t [current] := by
        have hyielded := Handle.ref_of_version (h := ⟨t, current, version⟩) ht hversion.symm
        simp [World.store, World.extend, Store.pointing, List.map_set, hadvanced, hyielded]
      have hplan : w.store.plan (.next i) = .ok (.advance i t current ys) := by
        rw [Store.plan, hcursor, hcurrent]
        rfl
      have hperform := Store.Step.perform hplan .advance
      rw [hstore]
      rwa [Store.value, World.length_refs_store] at hperform
    · have hstale : w.StaleIter i := ⟨_, tree, current, hit, rfl, ht, hversion⟩
      refine .refuse (.const fun fuel => call_of_staleIter hstale fuel) ?_
      have hlost : SExpIter.cursor w.trees ⟨t, some current, version⟩ = ⟨t, none⟩ := by
        rw [World.cursor_eq ht rfl, if_neg hversion]
      rw [Store.plan, hcursor, hlost]

end Sexp
