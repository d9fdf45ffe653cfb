import Sexp.Core.Contents
import Sexp.Py.Canonical
import Sexp.Py.RootStays
import Sexp.Py.Survival
import Sexp.Serialize.Unfolding

/-! # Atoms are written verbatim

The library takes any text for an atom, and the serializer writes it as it is. In every run in which
the texts that are given to atoms are tokens by themselves, so are the texts of all atoms, and what
`repr` writes for a node reads back as the form of the node (`atoms_cannot_forge`). A text that is
given to an atom is not checked: with a space or a parenthesis in it, it changes the document. -/

namespace Sexp

open Library (Rose Form Answers Run)

variable {fuel : Nat} {w w' : World} {c : Call} {h : Handle} {tree tree' : Tree} {n : NodeId}
  {events : List ApiEvent} {text : String} {form : Form String}

/-! ## Writes and created trees -/

/-- **The condition on a call**: a text that it gives to an atom is a token by itself. -/
def Call.GivesTokens : Call → Prop
  | .newAtom _ text | .setValue _ text => LoneAtom text
  | _ => True

/-- The text that a call gives to an atom. -/
def Call.text? : Call → Option String
  | .newAtom _ text | .setValue _ text => some text
  | _ => none

/-- **Every write keeps what is true of the contents**, when it is true of an atom with the text
that the call gives. -/
theorem World.Writes.contents_of {P : NodeType → Prop} (hwrite : w.Writes fuel h tree c tree')
    (hlist : P .list) (hatom : ∀ text, c.text? = some text → P (.atom (Atom.new text)))
    (hP : tree.Contents P) : tree'.Contents P := by
  cases hwrite with
  | cache htext => exact hP.of_nodes_eq rfl
  | @value self value m hm _ =>
      have hlive : (tree.nodes.get h.node).isSome := by
        rw [hm]
        rfl
      have hrewrites := Slab.Rewrites.of_modify (Slab.modify_of_live hlive
        fun n => { n with kind := .atom (Atom.new value) })
      refine hP.of_rewrites hrewrites fun id m hm => ?_
      split
      · exact hatom value rfl
      · exact hm
  | alloc hc halloc =>
      refine halloc.contents hP ?_
      cases c with
      | newAtom self value =>
          cases hc
          exact hatom value rfl
      | newList self =>
          cases hc
          exact hlist
      | _ => cases hc
  | attach hop hrun => exact (Attachment.run_relinked hrun).contents hP
  | remove hc hne hremove => exact (remove_contents hremove hP).of_nodes_eq rfl

/-- **What is true of the contents of all trees is true of those of a created one**, when it is true
of the atoms of texts that are parsed. -/
theorem World.Creates.contents_of {P : NodeType → Prop} (hcreate : w.Creates fuel c tree)
    (hlist : P .list) (hatom : ∀ s value, .atom value ∈ tokensOf s → P (.atom (Atom.new value)))
    (hP : w.AllTrees (Tree.Contents P)) : tree.Contents P := by
  refine hcreate.of_sources hP (fun hnew => ?_) (fun s hparse => ?_)
    fun source n hsource hne hclone => ?_
  · cases hnew
    exact contents_single hlist
  · exact parse_contents hlist (hatom s) hparse
  · exact cloneSubtree_contents hsource hne hclone

/-- An atom with a text that is a token is clean. -/
theorem clean_new {value : String} (h : CleanAtom value) :
    (NodeType.atom (Atom.new value)).Clean := by
  show CleanAtom (Atom.new value).asStr
  rwa [Atom.asStr_new]

/-- **Every write keeps the contents clean**, when the text that it gives to an atom is a token. -/
theorem World.Writes.contents (hwrite : w.Writes fuel h tree c tree') (hgives : c.GivesTokens)
    (hclean : tree.Contents NodeType.Clean) : tree'.Contents NodeType.Clean := by
  refine hwrite.contents_of trivial (fun text htext => clean_new (loneAtom_iff.mp ?_)) hclean
  cases c with
  | newAtom _ _ | setValue _ _ =>
      cases htext
      exact hgives
  | _ => cases htext

/-- **Every created tree has clean contents**, when the trees that exist have: the atoms of a parsed
tree are tokens. -/
theorem World.Creates.contents (hcreate : w.Creates fuel c tree)
    (hclean : w.AllTrees (Tree.Contents NodeType.Clean)) : tree.Contents NodeType.Clean :=
  hcreate.contents_of trivial
    (fun s value hvalue => clean_new (cleanTokens_tokensOf s value hvalue)) hclean

/-- **The contents are clean** in every run in which the texts given to atoms are tokens. -/
theorem contents_of_run (hrun : ApiRun events w)
    (hgives : ∀ e ∈ events, e.label.call.GivesTokens) :
    w.AllTrees (Tree.Contents NodeType.Clean) := by
  have hwrite : ∀ (e : ApiEvent) fuel self h tree tree', e.label.call.GivesTokens →
      e.label.call.self? = some self → e.before.Receives self h tree →
      e.before.Writes fuel h tree e.label.call tree' → tree' ∈ e.after.trees →
      tree.Contents NodeType.Clean → tree'.Contents NodeType.Clean := by
    intro e fuel self h tree tree' he _ _ hwrite _ hclean
    exact hwrite.contents he hclean
  exact ApiRun.forall_tree hrun hwrite (fun _ _ _ _ hclean hcreate _ => hcreate.contents hclean)
    hgives

/-! ## Reading back -/

/-- **A text reads back as a form**: `parse` accepts it, and the root of the tree denotes the form.
-/
def ReadsBack (text : String) (form : Form String) : Prop :=
  ∃ parsed, Answers (fun fuel => parse fuel text) (.ok parsed) ∧ parsed.Denotes parsed.root form

/-- The text of a form with clean atoms reads back, when there are keys for its nodes. -/
theorem readsBack_print (hclean : CleanTokens form.tokens) (hsize : form.size ≤ 2 ^ 32) :
    ReadsBack (print form) form := by
  obtain ⟨parsed, hparsed, hspells⟩ := parse_form (tokensOf_print hclean) hsize
  exact ⟨parsed, hparsed, hspells.denotes⟩

/-- The empty text reads back as the empty list. -/
theorem readsBack_empty : ReadsBack "" (.list []) := by
  obtain ⟨tree, hbare⟩ : ∃ tree, Tree.newBare = .ok tree := ⟨_, rfl⟩
  have htokens : tokensOf "" = [] := lex_nil
  refine ⟨tree, parse_empty htokens hbare, ?_⟩
  rw [newBare_eq hbare]
  refine ⟨_, .node ⟨0⟩ [], fun id => represents_single .list id, rfl, .node rfl (by simp), rfl, ?_⟩
  exact formOf_list rfl []

/-- **The form that `repr` writes for a node**: the one that the node unfolds to; the root list of a
bare tree counts as empty when it has no first child. -/
inductive Tree.ReprForm (tree : Tree) (n : NodeId) : Form String → Prop where
  /-- A node. -/
  | unfolds {form : Form String} (h : tree.Unfolds n form) : ReprForm tree n form
  /-- The root of a bare tree. -/
  | bareRoot {m : Node} (hbare : tree.bare = true) (hroot : n = tree.root)
      (hm : tree.nodes.get n = some m) (hkind : m.kind = .list) (hfirst : m.firstChild = none) :
      ReprForm tree n (.list [])

/-- **The root of a bare tree is the list that it was created with.** -/
def Tree.BareRootIsList (tree : Tree) : Prop :=
  tree.bare = true → ∃ m, tree.nodes.get tree.root = some m ∧ m.kind = .list

/-- A node that counts as a bare root is the root of a bare tree, and has no first child. -/
theorem SExp.isBareRoot_eq_true (h : isBareRoot tree n = .ok true) :
    tree.bare = true ∧ n = tree.root ∧
      ∃ m, tree.nodes.get n = some m ∧ m.firstChild = none := by
  unfold isBareRoot at h
  split at h
  · rename_i hroot
    obtain ⟨first, hfirst, hnone⟩ := Library.bind_eq_ok.mp h
    obtain ⟨m, hm, hpure⟩ := Library.bind_eq_ok.mp hfirst
    cases hpure
    refine ⟨hroot.1, hroot.2, m, Slab.index_eq_ok.mp hm, ?_⟩
    rw [Library.pure_eq_ok, Except.ok.injEq] at hnone
    exact Option.isNone_iff_eq_none.mp hnone
  · cases h

/-- **What is computed for a node reads back** as the form that is written, when the contents are
clean. Only for the root it matters what became of the root of a bare tree. -/
theorem uncachedRepr_readsBack (hclean : tree.Contents NodeType.Clean)
    (hlist : n = tree.root → tree.BareRootIsList)
    (htext : uncachedRepr fuel tree n = .ok text) (hfew : (tokensOf text).length < 2 ^ 32) :
    ∃ form, tree.ReprForm n form ∧ ReadsBack text form := by
  obtain ⟨bare, hbare, hrest⟩ := Library.bind_eq_ok.mp htext
  cases bare with
  | true =>
      cases hrest
      obtain ⟨hflag, rfl, m, hm, hfirst⟩ := SExp.isBareRoot_eq_true hbare
      obtain ⟨m', hm', hkind⟩ := hlist rfl hflag
      obtain rfl := Option.some.inj (hm.symm.trans hm')
      exact ⟨.list [], .bareRoot hflag rfl hm hkind hfirst, readsBack_empty⟩
  | false =>
      obtain ⟨form, hform, rfl⟩ := serializeNode_unfolds hrest
      have hatoms : CleanTokens form.tokens := hform.cleanTokens hclean
      refine ⟨form, .unfolds hform, readsBack_print hatoms ?_⟩
      rw [tokensOf_print hatoms] at hfew
      rw [← Library.nodeCount_tokens]
      exact le_trans (Library.nodeCount_le_length _) hfew.le

/-- A list without a first child denotes the empty list. -/
theorem Tree.Denotes.eq_nil {m : Node} (h : tree.Denotes n form)
    (hm : tree.nodes.get n = some m) (hkind : m.kind = .list) (hfirst : m.firstChild = none) :
    form = .list [] := by
  obtain ⟨F, r, hF, -, hr, rfl, rfl⟩ := h
  obtain ⟨hlabel, heq⟩ := hF.eq_nodeOf hm
  rw [hkind] at hlabel
  have hchildren : F.children r.root = [] := by
    rw [heq] at hfirst
    exact List.head?_eq_none_iff.mp hfirst
  cases hr with
  | @node p ks hkids hspans =>
      rw [Rose.root_node] at hlabel hchildren
      rw [hkids, List.map_eq_nil_iff] at hchildren
      rw [hchildren, formOf_list hlabel]
      rfl

/-- **Every node that denotes a form has a text**, which reads back as the form, when the contents
are clean. -/
theorem Tree.Denotes.readsBack (h : tree.Denotes n form) (hclean : tree.Contents NodeType.Clean)
    (hlist : n = tree.root → tree.BareRootIsList) :
    ∃ text, Answers (fun fuel => uncachedRepr fuel tree n) text ∧ ReadsBack text form := by
  obtain ⟨m, hm⟩ := Option.isSome_iff_exists.mp h.live
  refine ⟨_, uncachedRepr_answers h hm, ?_⟩
  split
  · rename_i hbare
    obtain ⟨hflag, rfl, hfirst⟩ := hbare
    obtain ⟨m', hm', hkind⟩ := hlist rfl hflag
    obtain rfl := Option.some.inj (hm.symm.trans hm')
    rw [h.eq_nil hm hkind hfirst]
    exact readsBack_empty
  · exact readsBack_print (h.unfolds.cleanTokens hclean) h.size_le

/-! ## The root of a bare tree -/

/-- A write makes no atom of a list, and no list of an atom. -/
theorem World.Writes.isAtom_eq {id : NodeId} {m m' : Node} (hwrite : w.Writes fuel h tree c tree')
    (hslab : tree.nodes.WellFormed) (hm : tree.nodes.get id = some m)
    (hm' : tree'.nodes.get id = some m') : m'.isAtom = m.isAtom := by
  by_cases hc : c.removes = true
  · obtain ⟨tree₁, hremove, rfl⟩ := hwrite.of_removes hc
    obtain ⟨old, hold, hkind⟩ := remove_kind hremove hm'
    obtain rfl := Option.some.inj (hm.symm.trans hold)
    rw [Node.isAtom, Node.isAtom, hkind]
  · obtain ⟨n', hn', hkind⟩ := hwrite.kind hslab (Bool.eq_false_of_not_eq_true hc) hm
    obtain rfl := Option.some.inj (hm'.symm.trans hn')
    rcases hkind with hkind | ⟨hatom, self, value, -, -, hkind⟩
    · rw [Node.isAtom, Node.isAtom, hkind]
    · rw [hatom, Node.isAtom, hkind]

/-- A node is a list iff it is no atom. -/
theorem Node.kind_eq_list_iff {m : Node} : m.kind = .list ↔ m.isAtom = false := by
  rw [Node.isAtom]
  rcases m.kind with value | _ <;> simp

/-- **The root of a bare tree stays a list** in every run that attaches no root and names none as a
sibling. -/
theorem bareRootIsList_of_run (hrun : ApiRun events w) (hspares : ∀ e ∈ events, e.SparesRoot) :
    w.AllTrees Tree.BareRootIsList := by
  have hboth : w.AllTrees fun tree => tree.RootSecure ∧ tree.BareRootIsList := by
    refine ApiRun.forall_tree hrun ?_ ?_ hspares
    · rintro e fuel self h tree tree' he hself hrec hwrite hmem ⟨hsecure, hlist⟩
      have hsecure' : tree'.RootSecure := hwrite.rootSecure hsecure
        (fun op child hop => he.attaches self h tree op child hself hrec hop)
        (he.small tree' hmem)
      refine ⟨hsecure', fun hbare => ?_⟩
      rw [hwrite.bare_eq] at hbare
      obtain ⟨m, hm, hkind⟩ := hlist hbare
      obtain ⟨m', hm'⟩ := Option.isSome_iff_exists.mp hsecure'.live
      refine ⟨m', hm', ?_⟩
      rw [hwrite.root_eq] at hm'
      rw [Node.kind_eq_list_iff, hwrite.isAtom_eq hsecure.slab hm hm']
      exact Node.kind_eq_list_iff.mp hkind
    · intro e fuel tree he hboth hcreate hmem
      refine ⟨hcreate.rootSecure (fun tree htree => (hboth tree htree).1) (he.small tree hmem), ?_⟩
      refine hcreate.of_sources (fun tree htree => (hboth tree htree).2) (fun hnew => ?_)
        (fun s hparse => ?_) fun source n _ hne hclone => ?_
      · cases hnew
        exact fun hbare => by cases hbare
      · rcases parse_run hparse with hbare | ⟨building, root, rfl, -⟩
        · rw [newBare_eq hbare]
          exact fun _ => ⟨Node.unlinked .list, rfl, rfl⟩
        · exact fun hbare => by cases hbare
      · intro hbare
        rw [(cloneSubtree_grown hne hclone).bare_eq] at hbare
        cases hbare
  exact fun tree htree => (hboth tree htree).2

/-! ## Runs -/

/-- **Atoms cannot forge structure**: the text of every atom is a token by itself, and what is
written for a node reads back as the form of the node. -/
structure World.AtomsCannotForge (w : World) : Prop where
  /-- The text of an atom is exactly one token, the atom itself. -/
  atoms : w.AllTrees fun tree => ∀ id m value, tree.nodes.get id = some m →
    m.kind = .atom value → LoneAtom value.asStr ∧ CleanAtom value.asStr
  /-- Whatever is computed for a node, in any tree, reads back as the form that is written, when it
  has fewer tokens than there are keys; the root of a bare tree has to be a list for that. -/
  texts : w.AllTrees fun tree => ∀ n, (n = tree.root → tree.BareRootIsList) → ∀ fuel text,
    uncachedRepr fuel tree n = .ok text → (tokensOf text).length < 2 ^ 32 →
    ∃ form, tree.ReprForm n form ∧ ReadsBack text form
  /-- Every node that denotes a form has a text, which reads back as the form. -/
  forms : w.AllTrees fun tree => ∀ n, (n = tree.root → tree.BareRootIsList) → ∀ form,
    tree.Denotes n form → ∃ text,
      Answers (fun fuel => uncachedRepr fuel tree n) text ∧ ReadsBack text form

/-- **Atoms cannot forge structure** in any run in which the texts that are given to atoms are
tokens by themselves. The root of a bare tree stays a list when the run spares the roots, and what
`repr` returns reads back, too, when no version overflows. -/
theorem atoms_cannot_forge (hrun : ApiRun events w)
    (hgives : ∀ e ∈ events, e.label.call.GivesTokens) :
    w.AtomsCannotForge ∧
    ((∀ e ∈ events, e.SparesRoot) → w.AllTrees Tree.BareRootIsList) ∧
    ((∀ e ∈ events, e.label.call.NoOverflow e.before) →
      ∀ ref h tree, w.Receives ref h tree → (h.node = tree.root → tree.BareRootIsList) →
        ∀ fuel text w', call fuel (.repr ref) w = .ok (.ok (.str text), w') →
          (tokensOf text).length < 2 ^ 32 →
          ∃ form, tree.ReprForm h.node form ∧ ReadsBack text form) := by
  have hclean := contents_of_run hrun hgives
  refine ⟨?_, bareRootIsList_of_run hrun, ?_⟩
  · constructor
    case atoms =>
      intro tree htree id m value hm hkind
      have hatom := hclean tree htree id m hm
      rw [hkind] at hatom
      exact ⟨loneAtom_iff.mpr hatom, hatom⟩
    case texts =>
      intro tree htree n hlist fuel text htext hfew
      exact uncachedRepr_readsBack (hclean tree htree) hlist htext hfew
    case forms =>
      intro tree htree n hlist form hform
      exact hform.readsBack (hclean tree htree) hlist
  · intro hoverflow ref h tree hrec hlist fuel text w' hcall hfew
    have htree := List.mem_of_getElem? hrec.tree_eq
    -- the cache is not observable
    obtain ⟨_, hreturn, ⟨rfl⟩⟩ := PyM.map_eq_ok.mp hcall
    obtain ⟨_, ⟨rfl⟩, hanswers⟩ := SExp.repr_ok hrec (cacheValid_of_run hrun hoverflow tree htree)
      hreturn
    obtain ⟨fuel', htext⟩ := hanswers.exists_fuel
    exact uncachedRepr_readsBack (hclean tree htree) hlist htext hfew

/-- `atoms_cannot_forge` at an atom that is appended to a list. -/
theorem atoms_cannot_forge_appended : (listAppended 1).AtomsCannotForge ∧
    ∃ form, (atomAppended 1).ReprForm ⟨0⟩ form ∧ ReadsBack "(a)" form := by
  have hlone : LoneAtom "a" :=
    loneAtom_iff.mpr ⟨by decide, List.forall_mem_singleton.mpr (by decide)⟩
  obtain ⟨hforge, -, hrepr⟩ :=
    atoms_cannot_forge run_appended (forall_eventsAppended trivial hlone trivial trivial)
  have hrec : (listAppended 1).Receives 0 ⟨0, ⟨0⟩, 1⟩ (atomAppended 1) := ⟨rfl, rfl, rfl⟩
  obtain ⟨w', hcall⟩ : ∃ w', call 5 (.repr 0) (listAppended 1) = .ok (.ok (.str "(a)"), w') :=
    ⟨_, rfl⟩
  have hfew : (tokensOf "(a)").length < 2 ^ 32 := lt_of_le_of_lt (length_lex_le _) (by decide)
  -- the tree is not bare
  exact ⟨hforge, hrepr eventsAppended_noOverflow 0 _ _ hrec (fun _ hbare => by cases hbare) 5 "(a)"
    w' hcall hfew⟩

/-! ## A text with a space in it -/

/-- `singleList` with an atom with a space in it. -/
def spacedAtom : Tree :=
  Tree.fromRaw ⟨[some Node.newList, some (Node.newAtom (Atom.new "a b"))], []⟩ ⟨0⟩

/-- The objects after `t = SExp(); a = t.new_atom("a b")`. -/
def afterSpacedAtom : World := ⟨[spacedAtom], [⟨0, ⟨0⟩, 0⟩, ⟨0, ⟨1⟩, 0⟩], []⟩

/-- `t.new_atom("a b")` after `t = SExp()`. -/
theorem step_spacedAtom : ApiStep oneList ⟨.newAtom 0 "a b", .ok (.sexp 1)⟩ afterSpacedAtom :=
  ⟨0, rfl⟩

/-- **Atoms can forge structure**: after `t = SExp(); a = t.new_atom("a b")` the text of the atom is
two tokens. -/
theorem atom_forges : ¬ ∀ events w, ApiRun events w → w.AtomsCannotForge := by
  intro hforge
  have hatoms := (hforge _ _ ((Run.nil.cons step_oneList).cons step_spacedAtom)).atoms
  obtain ⟨-, hclean⟩ := hatoms spacedAtom List.mem_cons_self ⟨1⟩ _ (Atom.new "a b") rfl rfl
  rw [Atom.asStr_new] at hclean
  have hspace : isStop ' ' = false := hclean.isStop_eq ' ' (by simp)
  cases hspace

end Sexp
