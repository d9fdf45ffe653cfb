import Sexp.Core.LeafAtoms
import Sexp.Py.Copies
import Sexp.Py.Freshness
import Sexp.Py.Guard

/-! # Atoms stay leaves

A run in which the receivers of all attachments are lists, and the attachments are guarded, keeps
atoms leaves; `==`, `clone` and, when no version overflows, `repr` then cover everything that is
attached below a node (`atoms_stay_leaves`). The library does not check that the receiver is a list:
an atom takes children. -/

namespace Sexp

open Library (Form Answers Run)

variable {fuel : Nat} {w w' : World} {c : Call} {h : Handle} {tree tree' : Tree} {n : NodeId}
  {events : List ApiEvent}

/-! ## Writes and created trees -/

/-- **Every write keeps atoms leaves**, when what it attaches is sane and goes under a list. -/
theorem World.Writes.leafAtoms (hwrite : w.Writes fuel h tree c tree') (hcons : tree.Consistent)
    (hleaf : tree.LeafAtoms)
    (hsane : ∀ op child, w.Attaching h tree c op child → op.run fuel tree h.node child = .ok tree' →
      op.Sane tree h.node child ∧ ∀ m, tree.nodes.get h.node = some m → m.isAtom = false)
    (hfits : tree'.nodes.slots.length ≤ 2 ^ 32) : tree'.LeafAtoms := by
  cases hwrite with
  | cache htext => exact hleaf
  | @value self value m hm hatom =>
      intro id node hid hkind
      have hget : (tree.nodes.update h.node fun n =>
          { n with kind := .atom (Atom.new value) }).get id = some node := hid
      rw [Slab.get_update, Option.map_eq_some_iff] at hget
      obtain ⟨old, hold, rfl⟩ := hget
      by_cases hsame : id = h.node
      · -- the links of the atom are kept
        subst hsame
        obtain rfl := Option.some.inj (hm.symm.trans hold)
        rw [if_pos rfl]
        exact hleaf _ m hm hatom
      · rw [if_neg hsame] at hkind ⊢
        exact hleaf id old hold hkind
  -- a new node has no children
  | alloc hc halloc => exact halloc.leafAtoms hcons.slab hleaf hfits
  | attach hop hrun =>
      obtain ⟨⟨hbelow, hop⟩, hlist⟩ := hsane _ _ hop hrun
      exact (Attachment.run_moved hcons hbelow hop hrun).2.leafAtoms hleaf hlist
  | remove hc hne hremove =>
      have hdeleted := (remove_deleted hcons hremove).2.1.leafAtoms hleaf
      exact hdeleted

/-- A parsed tree has leaf atoms. -/
theorem parse_leafAtoms {s : String} (h : parse fuel s = .ok (.ok tree))
    (hfits : tree.nodes.slots.length ≤ 2 ^ 32) : tree.LeafAtoms := by
  rcases parse_tree h hfits with hbare | ⟨form, hspells⟩
  · rw [newBare_eq hbare]
    exact leafAtoms_single .list
  · exact hspells.leafAtoms

/-- **What a live node of a consistent tree with leaf atoms is copied to**: itself, if it is the
root, and else a copy with leaf atoms. -/
theorem cloneSubtree_leafAtoms {copy : Tree} (hcons : tree.Consistent) (hleaf : tree.LeafAtoms)
    (hne : n ≠ tree.root) (h : cloneSubtree fuel tree n = .ok copy) : copy.LeafAtoms := by
  obtain ⟨F, hF⟩ := hcons.exists_represents
  obtain ⟨r, rfl, hr⟩ := F.exists_spans n
  obtain ⟨copy', hanswers, hcopy⟩ := cloneSubtree_answers hF hr (cloneSubtree_live hne h) hne
  obtain rfl : copy = copy' := hanswers.eq_of_ok (cloneSubtree_mono tree r.root) h
  have hrose := leafRose_of_spans (hF.leafAtoms_iff.mp hleaf) hr
  rw [copied_of_leafRose hrose] at hcopy
  exact hcopy.leafAtoms hrose

/-- A consistent tree with leaf atoms. -/
structure Tree.Leafy (tree : Tree) : Prop extends Tree.Consistent tree where
  /-- Atoms are leaves. -/
  leafAtoms : tree.LeafAtoms

/-- **Every created tree is consistent and has leaf atoms**, when the trees that exist are and
have. -/
theorem World.Creates.leafy (hcreate : w.Creates fuel c tree) (hleafy : w.AllTrees Tree.Leafy)
    (hfits : tree.nodes.slots.length ≤ 2 ^ 32) : tree.Leafy := by
  refine hcreate.of_sources hleafy (fun hnew => ?_) (fun s hparse => ?_)
    fun source n hsource hne hclone => ?_
  · cases hnew
    exact ⟨(wellFormed_single .list).toConsistent, leafAtoms_single .list⟩
  · exact ⟨(parse_wellFormed hparse hfits).1.toConsistent, parse_leafAtoms hparse hfits⟩
  · have hcons := hsource.toConsistent
    exact ⟨(cloneSubtree_wellFormed hcons hne hclone).1.toConsistent,
      cloneSubtree_leafAtoms hcons hsource.leafAtoms hne hclone⟩

/-! ## Runs -/

/-- **The condition on an event**: what it attaches goes under a list, is not in the blind spot of
the guard, and is inserted behind a child of the receiver only. -/
structure ApiEvent.GuardedLists (e : ApiEvent) : Prop extends ApiEvent.Guarded e where
  /-- The receiver is a list. -/
  lists : e.label.call.AttachesOnly
    (fun tree parent _ _ => ∀ m, tree.nodes.get parent = some m → m.isAtom = false) e.before

/-- **Trees stay consistent and keep leaf atoms** in every run whose attachments are guarded and go
under lists. -/
theorem leafy_of_run (hrun : ApiRun events w) (hguarded : ∀ e ∈ events, e.GuardedLists) :
    w.AllTrees Tree.Leafy := by
  refine ApiRun.forall_tree hrun ?_ ?_ hguarded
  · intro e fuel self h tree tree' he hself hrec hwrite hmem hleafy
    have hfits := he.small tree' hmem
    -- the guard has let the attachment pass, and it is not in the blind spot
    have hsane : ∀ op child, e.before.Attaching h tree e.label.call op child →
        op.run fuel tree h.node child = .ok tree' → op.Sane tree h.node child := by
      intro op child hop hrunop
      obtain ⟨hblind, hfits⟩ := he.attaches self h tree op child hself hrec hop
      exact ⟨not_ancestorOrSelf_of_guard (Attachment.run_guard hrunop) hblind, hfits⟩
    refine ⟨hwrite.consistent hleafy.toConsistent hsane hfits, ?_⟩
    refine hwrite.leafAtoms hleafy.toConsistent hleafy.leafAtoms
      (fun op child hop hrunop => ?_) hfits
    exact ⟨hsane op child hop hrunop, he.lists self h tree op child hself hrec hop⟩
  · intro e fuel tree he hleafy hcreate hmem
    exact hcreate.leafy hleafy (he.small tree hmem)

/-- **Atoms are leaves** in every tree, and what `repr`, `==` and `clone` do for a node covers
everything that is attached below it. -/
structure World.AtomsAreLeaves (w : World) : Prop where
  /-- Live atoms have no children. -/
  childless : w.AllTrees Tree.LeafAtoms
  /-- Every parent is a list. -/
  parents : w.AllTrees fun tree => ∀ id p, tree.parentOf id = some p →
    ∃ m, tree.nodes.get p = some m ∧ m.isAtom = false
  /-- Every live node has a form that shows everything below it. -/
  forms : w.AllTrees fun tree => ∀ n, tree.Live n → ∃ form, tree.Shows n form
  /-- `repr` returns the text of this form for every handle to the node that is not stale; the empty
  text is the one of a node without anything below it. -/
  repr : ∀ ref h tree, w.Receives ref h tree → ∀ form, tree.Shows h.node form →
    ∃ text w', Answers (fun fuel => call fuel (.repr ref) w) (.ok (.str text), w') ∧
      (text = print form ∨ text = "" ∧ ∀ m, tree.AncestorOrSelf h.node m → m = h.node)
  /-- Two nodes are equal iff these forms are. -/
  eq : w.AllTrees fun left => w.AllTrees fun right => ∀ l r form form', left.Shows l form →
    right.Shows r form' → ∃ answer, Answers (fun fuel => subtreesEqual fuel left l right r) answer ∧
      (answer = true ↔ form = form')
  /-- The copy of a node has this form, and shows everything below its root with it. -/
  clone : w.AllTrees fun tree => ∀ n form, tree.Shows n form →
    ∃ copy, Answers (fun fuel => cloneSubtree fuel tree n) copy ∧ copy.Shows copy.root form

/-- **The text of a node covers what is below it.** -/
theorem Tree.Leafy.text_shows (hleafy : tree.Leafy) {form : Form String}
    (hshows : tree.Shows n form) :
    ∃ text, Answers (fun fuel => uncachedRepr fuel tree n) text ∧
      (text = print form ∨ text = "" ∧ ∀ m, tree.AncestorOrSelf n m → m = n) := by
  obtain ⟨node, hnode⟩ := Option.isSome_iff_exists.mp hshows.denotes.live
  refine ⟨_, uncachedRepr_answers hshows.denotes hnode, ?_⟩
  -- the text is empty for a bare root without children, and printed otherwise
  split
  · rename_i hbare
    exact .inr ⟨rfl, fun m hm => hleafy.toConsistent.eq_of_childless hnode hbare.2.2 hm⟩
  · exact .inl rfl

/-- **The copy of a node covers what is below it.** -/
theorem Tree.Leafy.clone_shows (hleafy : tree.Leafy) {form : Form String}
    (hshows : tree.Shows n form) :
    ∃ copy, Answers (fun fuel => cloneSubtree fuel tree n) copy ∧ copy.Shows copy.root form := by
  by_cases hroot : n = tree.root
  · -- the copy of the root is the tree itself
    refine ⟨tree, .const fun fuel => ?_, hroot ▸ hshows⟩
    rw [cloneSubtree, if_pos hroot]
    rfl
  · obtain ⟨copy, hanswers, hfaithful, -⟩ := cloneSubtree_faithful hleafy.toConsistent
      hleafy.leafAtoms hshows.denotes.live hroot
    obtain ⟨form', hform, hcopy⟩ := hfaithful.form
    obtain rfl := hform.denotes.unique hshows.denotes
    exact ⟨copy, hanswers, hcopy⟩

/-- **Atoms stay leaves** in every run whose attachments are guarded and go under lists, and in
which no version overflows. -/
theorem atoms_stay_leaves (hrun : ApiRun events w) (hguarded : ∀ e ∈ events, e.GuardedLists)
    (hoverflow : ∀ e ∈ events, e.label.call.NoOverflow e.before) : w.AtomsAreLeaves := by
  have hleafy := leafy_of_run hrun hguarded
  constructor
  case childless => exact fun tree htree => (hleafy tree htree).leafAtoms
  case parents =>
    intro tree htree id p hparent
    exact (hleafy tree htree).leafAtoms.parent_isList (hleafy tree htree).toConsistent hparent
  case forms =>
    intro tree htree n hn
    exact (hleafy tree htree).toConsistent.shows (hleafy tree htree).leafAtoms hn
  case repr =>
    intro ref h tree hrec form hshows
    have htree := List.mem_of_getElem? hrec.tree_eq
    obtain ⟨text, htext, hcovers⟩ := (hleafy tree htree).text_shows hshows
    -- what is computed is what `repr` returns, since the cache is valid
    have hcache := cacheValid_of_run hrun hoverflow tree htree
    obtain ⟨w', hrepr⟩ := SExp.repr_answers hrec hcache htext
    exact ⟨text, w', PyM.map_answers hrepr Value.str, hcovers⟩
  case eq =>
    intro left hleft right hright l r form form' hl hr
    exact subtreesEqual_answers hl.denotes hr.denotes
  case clone =>
    intro tree htree n form hshows
    exact (hleafy tree htree).clone_shows hshows

/-- `atoms_stay_leaves` at an atom that is appended to a list with a cached text. -/
theorem atoms_stay_leaves_appended : (listAppended 1).AtomsAreLeaves := by
  have hattaches := eventsAppended_attachesOnly
    (fun tree parent op child => ¬ tree.BlindSpot parent child ∧ op.Fits tree parent child)
    ⟨fun hblind => Tree.not_ancestorOrSelf (by decide) rfl hblind.2.2, trivial⟩
  have hlists := eventsAppended_attachesOnly
    (fun tree parent _ _ => ∀ m, tree.nodes.get parent = some m → m.isAtom = false)
    (fun m hm => by cases hm; rfl)
  exact atoms_stay_leaves run_appended
    (fun e he => ⟨⟨hattaches e he, eventsAppended_small e he⟩, hlists e he⟩)
    eventsAppended_noOverflow

/-! ## An atom with a child -/

/-- An empty list, an atom, and another empty list below the atom. -/
def listBelowAtom : Tree where
  nodes :=
    ⟨[some Node.newList,
      some { Node.newAtom (Atom.new "a") with
        firstChild := some ⟨2⟩, lastChild := some ⟨2⟩, childCount := 1 },
      some { Node.newList with parent := some ⟨1⟩ }], []⟩
  root := ⟨0⟩
  version := 1
  bare := false
  reprCache := none

/-- The objects after `t = SExp(); a = t.new_atom("a"); l = t.new_list(); a.append(l)`. -/
def afterAppendToAtom : World :=
  ⟨[listBelowAtom], [⟨0, ⟨0⟩, 0⟩, ⟨0, ⟨1⟩, 1⟩, ⟨0, ⟨2⟩, 0⟩], []⟩

/-- `a.append(l)` after `t = SExp(); a = t.new_atom("a"); l = t.new_list()`. -/
theorem step_appendToAtom :
    ApiStep (afterNewLists 1) ⟨.append 1 2, .ok .none⟩ afterAppendToAtom := ⟨3, rfl⟩

/-- **Atoms do not stay leaves in every run**: after `t = SExp(); a = t.new_atom("a");
l = t.new_list(); a.append(l)` the atom has a child. -/
theorem atom_gets_child : ¬ ∀ events w, ApiRun events w → w.AtomsAreLeaves := by
  intro hleaves
  have hrun := (((Run.nil.cons step_oneList).cons step_newAtom).cons (step_newList 0)).cons
    step_appendToAtom
  have hchildless := (hleaves _ _ hrun).childless listBelowAtom List.mem_cons_self
  have hcount := (hchildless ⟨1⟩ _ rfl rfl).1
  cases hcount

end Sexp
