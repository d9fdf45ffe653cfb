import Sexp.Py.Isolation
import Sexp.Reference.Refinement

/-! # Texts are read back

What `repr` gives for a node, `parse` reads as a document whose root is equal to the node (`==`) and
has the same text, at the end of every calm run (`reparse_equal`). The argument is one about the
reference store. -/

namespace Sexp

open Library (Answers Form OrderedForest Rose Run)
open Reference (Content Document Store Request Place contentsOf formAt readText)

namespace Reference

variable {ι : Type} {s s' : Store ι} {c : Call} {r : Except PyErr Value} {q : Request ι}
  {self other : HandleRef} {p p' : Place ι} {d d' : Document ι} {n : ι}

/-- The form of the nodes of a form. -/
theorem fold_contentsOf (form : Form String) : (contentsOf form).fold formAt = form := by
  match form with
  | .atom text => rw [contentsOf, Rose.fold_node]; rfl
  | .list forms =>
      rw [contentsOf_list, Rose.fold_node, List.map_map]
      have hforms : forms.map (Rose.fold formAt ∘ contentsOf) = forms := by
        conv_rhs => rw [← List.map_id forms]
        exact List.map_congr_left fun form _ => fold_contentsOf form
      rw [hforms]
      rfl

/-- The form of a document that consists of the nodes of a form. -/
theorem Document.Holds.form_eq [Finite ι] {form : Form String} {blank : Bool}
    (h : d.Holds (contentsOf form) blank) : d.form d.root = form := by
  rw [Document.form_eq_fold, h.contents, fold_contentsOf]

/-- A document that consists of a list without members. -/
theorem Document.Holds.root_eq [Finite ι] {blank : Bool}
    (h : d.Holds (.node (some .list) []) blank) :
    d.forest.label d.root = some .list ∧ d.forest.children d.root = [] := by
  have hcontents := h.contents
  rw [Document.contents, OrderedForest.value_eq, Rose.node.injEq, List.map_eq_nil_iff] at hcontents
  exact hcontents

/-! ## Blank documents -/

/-- **The root of a blank document is a list.** -/
def Document.Plain (d : Document ι) : Prop := d.blank = true → d.forest.label d.root = some .list

/-- The documents of the store have a list for a root, if they are blank. -/
def Store.Plain (s : Store ι) : Prop := ∀ d ∈ s.docs, d.Plain

namespace Document.Plain

variable [DecidableEq ι]

/-- A node that is not a list is given another content, or is new. -/
theorem put (hplain : d.Plain) (hn : d.forest.label n ≠ some .list) (content : Content) :
    (d.put n content).Plain := by
  intro hblank
  have hroot := hplain hblank
  have hne : d.root ≠ n := fun heq => hn (heq ▸ hroot)
  change (if d.root = n then some content else d.forest.label d.root) = some .list
  rw [if_neg hne, hroot]

/-- A node moves. -/
theorem moves {place : List ι → List ι} (hplain : d.Plain) (h : d.Moves d' p.node n place) :
    d'.Plain := by
  intro hblank
  rw [h.root, h.forest.label]
  exact hplain (h.blank ▸ hblank)

/-- A subtree is deleted. -/
theorem deletes (hplain : d.Plain) (h : d.Deletes d' n) : d'.Plain := by
  intro hblank
  have hlive := d'.root_live
  rw [h.root] at hlive ⊢
  have hout : d.root ∉ d.forest.subtree n := fun hmem => by
    rw [h.forest.dead _ hmem] at hlive
    cases hlive
  rw [(h.forest.stays _ hout).1]
  exact hplain (h.blank ▸ hblank)

omit [DecidableEq ι] in
/-- A new document, which is blank only when it is an empty list. -/
theorem of_holds [Finite ι] {nodes : Rose (Option Content)} {blank : Bool}
    (h : d.Holds nodes blank) (hnodes : blank = true → nodes = .node (some .list) []) :
    d.Plain := by
  intro hblank
  rw [h.blank] at hblank
  rw [hnodes hblank] at h
  exact h.root_eq.1

end Document.Plain

/-- Writing a document keeps it plain. -/
theorem Store.Plain.set (hplain : s.Plain) {t : ℕ} (hd : d.Plain) :
    ∀ d' ∈ s.docs.set t d, d'.Plain :=
  fun d' hd' => (List.mem_or_eq_of_mem_set hd').elim (hplain d') fun heq => heq ▸ hd

/-- Giving a document another structure. -/
theorem Store.Plain.restructure [DecidableEq ι] (hplain : s.Plain) (self : HandleRef) (t : ℕ)
    (hd : d.Plain) : (s.restructure self t d).Plain := hplain.set hd

/-- Creating a document. -/
theorem Store.Plain.push (hplain : s.Plain) (hd : d.Plain) : (s.push d).Plain := fun d' hd' =>
  (List.mem_append.mp hd').elim (hplain d') fun hmem => List.mem_singleton.mp hmem ▸ hd

/-- **What may be used** is a valid reference to a document of the store. -/
theorem Store.use_eq_ok : s.use self = .ok p ↔
    s.refs[self]? = some ⟨p.doc, p.node, true⟩ ∧ s.docs[p.doc]? = some p.document := by
  constructor
  · intro huse
    unfold use at huse
    split at huse
    · rename_i doc node href
      split at huse
      · rename_i document hdoc
        cases huse
        exact ⟨href, hdoc⟩
      · cases huse
    · cases huse
  · rintro ⟨href, hdoc⟩
    rw [use, href]
    dsimp only
    rw [hdoc]

/-- The document of what may be used is in the store. -/
theorem Store.mem_of_use (huse : s.use self = .ok p) : p.document ∈ s.docs :=
  List.mem_of_getElem? (use_eq_ok.mp huse).2

/-- **What a call may ask for**: what it writes or copies is in the store, a text is assigned to an
atom, and a new document is blank only when it is an empty list. -/
def Request.Grounded (s : Store ι) : Request ι → Prop
  | .assign p _ => p.document ∈ s.docs ∧ (p.document.atomText p.node).isSome
  | .alloc p _ | .attach _ p _ _ | .remove _ p | .extract _ p _ => p.document ∈ s.docs
  | .create nodes blank => blank = true → nodes = .node (some .list) []
  | .copy d => d ∈ s.docs
  | _ => True

section Steps

variable [Finite ι] [DecidableEq ι]

/-- A call asks for nothing else. -/
theorem Store.plan_grounded (hplan : s.plan c = .ok q) : q.Grounded s := by
  cases c with
  | parse source =>
      obtain ⟨form, -, hrest⟩ := Library.bind_eq_ok.mp hplan
      cases form with
      | none => cases hrest; exact fun _ => rfl
      | some form => cases hrest; exact nofun
  | new => cases hplan; exact nofun
  | repr self | len self | iter self | tail self | isAtom self =>
      obtain ⟨p, -, hrest⟩ := Library.bind_eq_ok.mp hplan
      cases hrest
      trivial
  | eq self other =>
      cases other with
      | sexp other =>
          obtain ⟨p, -, hrest⟩ := Library.bind_eq_ok.mp hplan
          obtain ⟨p', -, hrest⟩ := Library.bind_eq_ok.mp hrest
          cases hrest
          trivial
      | str text | object => cases hplan; trivial
  | contains self item =>
      obtain ⟨p, -, hrest⟩ := Library.bind_eq_ok.mp hplan
      obtain ⟨b, -, hrest⟩ := Library.bind_eq_ok.mp hrest
      cases hrest
      trivial
  | getItem self key =>
      cases key with
      | int index =>
          rw [Store.plan] at hplan
          split at hplan
          · cases hplan
          · obtain ⟨p, -, hrest⟩ := Library.bind_eq_ok.mp hplan
            split at hrest <;> cases hrest
            trivial
      | str key | slice start stop step =>
          obtain ⟨p, -, hrest⟩ := Library.bind_eq_ok.mp hplan
          split at hrest <;> cases hrest
          trivial
      | object =>
          obtain ⟨p, -, hrest⟩ := Library.bind_eq_ok.mp hplan
          cases hrest
  | next it =>
      rw [Store.plan] at hplan
      split at hplan <;> cases hplan
      · trivial
      · trivial
  | head self | value self =>
      obtain ⟨p, -, hrest⟩ := Library.bind_eq_ok.mp hplan
      split at hrest <;> cases hrest
      trivial
  | setValue self text =>
      obtain ⟨p, huse, hrest⟩ := Library.bind_eq_ok.mp hplan
      split at hrest
      · rename_i text' htext
        cases hrest
        exact ⟨Store.mem_of_use huse, by rw [htext]; rfl⟩
      · cases hrest
  | parent self =>
      obtain ⟨p, -, hrest⟩ := Library.bind_eq_ok.mp hplan
      split at hrest <;> cases hrest
      · trivial
      · trivial
  | newAtom self text | newList self =>
      obtain ⟨p, huse, hrest⟩ := Library.bind_eq_ok.mp hplan
      cases hrest
      exact Store.mem_of_use huse
  | append self child | prepend self child =>
      obtain ⟨x, -, hrest⟩ := Library.bind_eq_ok.mp hplan
      obtain ⟨p, huse, hrest⟩ := Library.bind_eq_ok.mp hrest
      cases hrest
      exact Store.mem_of_use huse
  | insertAfter self after child =>
      obtain ⟨x, -, hrest⟩ := Library.bind_eq_ok.mp hplan
      obtain ⟨a, -, hrest⟩ := Library.bind_eq_ok.mp hrest
      obtain ⟨p, huse, hrest⟩ := Library.bind_eq_ok.mp hrest
      split at hrest
      · cases hrest
        exact Store.mem_of_use huse
      · split at hrest <;> cases hrest
        exact Store.mem_of_use huse
  | remove self | extract self =>
      obtain ⟨p, huse, hrest⟩ := Library.bind_eq_ok.mp hplan
      split at hrest <;> cases hrest
      exact Store.mem_of_use huse
  | clone self =>
      obtain ⟨p, huse, hrest⟩ := Library.bind_eq_ok.mp hplan
      split at hrest <;> cases hrest
      · exact Store.mem_of_use huse
      · exact nofun

/-- **Every step keeps the documents plain.** -/
theorem Store.Step.plain (hstep : s.Step ⟨c, r⟩ s') (hplain : s.Plain) : s'.Plain := by
  cases hstep with
  | refuse => exact hplain
  | perform hplan hperforms =>
      have hgrounded := Store.plan_grounded hplan
      cases hperforms with
      | look | point | points | walk | advance => exact hplain
      | assign =>
          obtain ⟨hmem, htext⟩ := hgrounded
          refine hplain.set ((hplain _ hmem).put (fun hlist => ?_) _)
          rw [Document.atomText, hlist] at htext
          cases htext
      | alloc hnew =>
          refine hplain.set ((hplain _ hgrounded).put (fun hlist => hnew ?_) _)
          rw [Document.Live, hlist]
          rfl
      | attach hmoves => exact hplain.set ((hplain _ hgrounded).moves hmoves)
      | remove hdeletes => exact hplain.set ((hplain _ hgrounded).deletes hdeletes)
      | create hholds => exact hplain.push (.of_holds hholds hgrounded)
      | copy => exact hplain.push (hplain _ hgrounded)
      | extract hdeletes hholds =>
          exact (hplain.restructure _ _ ((hplain _ hgrounded).deletes hdeletes)).push
            (.of_holds hholds fun h => absurd h Bool.false_ne_true)

/-! ## Reading a text back -/

/-- What a step does whose call asks for something. -/
theorem Store.Step.of_plan (hplan : s.plan c = .ok q) (hstep : s.Step ⟨c, r⟩ s') :
    r = .ok (s.value q) ∧ s.Performs q s' := by
  cases hstep with
  | refuse hplan' =>
      rw [hplan] at hplan'
      cases hplan'
  | perform hplan' hperforms =>
      rw [hplan] at hplan'
      cases hplan'
      exact ⟨rfl, hperforms⟩

/-- What a step does whose call asks for a value. -/
theorem Store.Step.of_look {v : Value} (hplan : s.plan c = .ok (.look v))
    (hstep : s.Step ⟨c, r⟩ s') : r = .ok v ∧ s' = s := by
  obtain ⟨hr, hperforms⟩ := hstep.of_plan hplan
  cases hperforms
  exact ⟨hr, rfl⟩

/-- `repr` gives the text of a node. -/
theorem Store.Step.repr_eq (huse : s.use self = .ok p) (hstep : s.Step ⟨.repr self, r⟩ s') :
    r = .ok (.str (p.document.text p.node)) ∧ s' = s :=
  hstep.of_look (by rw [plan, huse]; rfl)

/-- `==` compares the forms of two nodes. -/
theorem Store.Step.eq_of_form (huse : s.use self = .ok p) (huse' : s.use other = .ok p')
    (hform : p.document.form p.node = p'.document.form p'.node)
    (hstep : s.Step ⟨.eq self (.sexp other), r⟩ s') : r = .ok (.bool true) ∧ s' = s :=
  hstep.of_look (by rw [plan, huse, Library.ok_bind, huse', Library.ok_bind]; simp [hform, pure,
    Except.pure])

/-- The text of a form with clean atoms says the form. -/
theorem readText_print {form : Form String} (hclean : CleanTokens form.tokens) :
    readText (print form) = .ok (some form) := by
  have hread := Library.read_tokensAll_eq [form]
  rw [Form.tokensAll_cons, Form.tokensAll_nil, List.append_nil] at hread
  rw [readText, tokensOf_print hclean, hread]
  rfl

/-- The empty text says nothing. -/
theorem readText_empty : readText "" = .ok none := by
  have htokens : tokensOf "" = [] := by simp [tokensOf]
  rw [readText, htokens]
  rfl

open Classical in
/-- **The text of a node is read back**: the root of the document that it says has the form and the
text of the node, when the atoms are clean. -/
theorem Store.Step.reads_text (hplain : s.Plain) (huse : s.use self = .ok p)
    (hclean : CleanTokens (p.document.form p.node).tokens)
    (hstep : s.Step ⟨.parse (.str (p.document.text p.node)), r⟩ s') :
    ∃ d, r = .ok (.sexp s.refs.length) ∧ s' = s.push d ∧
      d.form d.root = p.document.form p.node ∧ d.text d.root = p.document.text p.node := by
  by_cases hbare : p.document.blank ∧ p.node = p.document.root ∧
      p.document.forest.children p.node = []
  · obtain ⟨hblank, hroot, hchildren⟩ := hbare
    have htext : p.document.text p.node = "" := if_pos ⟨hblank, hroot, hchildren⟩
    have hplan : s.plan (.parse (.str (p.document.text p.node))) =
        .ok (.create (.node (some .list) []) true) := by
      rw [htext, plan, readSource, readText_empty]
      rfl
    obtain ⟨hr, hperforms⟩ := hstep.of_plan hplan
    cases hperforms with
    | @create _ _ d hholds =>
      obtain ⟨hlabel, hempty⟩ := hholds.root_eq
      have hlist := hplain _ (mem_of_use huse) hblank
      refine ⟨d, hr, rfl, ?_, ?_⟩
      · rw [Document.form, Document.form, OrderedForest.value_eq, OrderedForest.value_eq, hlabel,
          hempty, hchildren, hroot, hlist, List.map_nil, List.map_nil]
      · rw [htext]
        exact if_pos ⟨hholds.blank, rfl, hempty⟩
  · have htext : p.document.text p.node = print (p.document.form p.node) := if_neg hbare
    have hplan : s.plan (.parse (.str (p.document.text p.node))) =
        .ok (.create (contentsOf (p.document.form p.node)) false) := by
      rw [htext, plan, readSource, readText_print hclean]
      rfl
    obtain ⟨hr, hperforms⟩ := hstep.of_plan hplan
    cases hperforms with
    | @create _ _ d hholds =>
      have hform := hholds.form_eq
      refine ⟨d, hr, rfl, hform, ?_⟩
      rw [htext, Document.text, hform, if_neg]
      simp [hholds.blank]

end Steps

/-- The reference to the root of a new document. -/
theorem Store.use_push (s : Store ι) (d : Document ι) :
    (s.push d).use s.refs.length = .ok ⟨s.docs.length, d, d.root⟩ := by
  simp [use, push]

/-- What may be used still may when there is another document. -/
theorem Store.use_push_of_use (huse : s.use self = .ok p) (d : Document ι) :
    (s.push d).use self = .ok p := by
  obtain ⟨href, hdoc⟩ := use_eq_ok.mp huse
  refine use_eq_ok.mpr ⟨?_, ?_⟩
  · rw [push, List.getElem?_append_left (List.getElem?_eq_some_iff.mp href).1, href]
  · rw [push, List.getElem?_append_left (List.getElem?_eq_some_iff.mp hdoc).1, hdoc]

end Reference

/-! ## Runs -/

variable {w w' : World} {self other : HandleRef} {h : Handle} {tree : Tree} {c : Call}
  {r : Except PyErr Value} {events : List ApiEvent}

/-- A call that bumps no version attaches nothing. -/
theorem Call.attachesOnly_of_not_bumps {P : Tree → NodeId → Attachment → NodeId → Prop}
    (hbumps : c.bumps = false) : c.AttachesOnly P w :=
  Call.attachesOnly_of_none fun _ _ _ _ hop => by cases hop <;> cases hbumps

/-- An event whose call bumps no version is calm. -/
theorem ApiEvent.Calm.of_not_bumps (hbumps : c.bumps = false) (hsmall : w'.Small) :
    ApiEvent.Calm ⟨w, ⟨c, r⟩, w'⟩ where
  attaches := Call.attachesOnly_of_not_bumps hbumps
  removes self h tree _ _ hremove := by cases c <;> cases hremove <;> cases hbumps
  overflow := .of_not_bumps hbumps
  small := hsmall

/-- A calm step leads to a world that is ready. -/
theorem ApiEvent.Calm.ready_of_step (hcalm : ApiEvent.Calm ⟨w, ⟨c, r⟩, w'⟩) (hready : w.Ready)
    (hstep : ApiStep w ⟨c, r⟩ w') : w'.Ready := by
  rcases hstep.cases with ⟨-, rfl⟩ | ⟨fuel, v, -, heffect⟩
  · exact hready
  · exact hcalm.ready hready heffect

/-- **After a calm run**: the world stands for a store with plain documents, and its trees are
small. -/
theorem plain_of_run (hrun : ApiRun events w) (hcalm : ∀ e ∈ events, e.Calm) :
    w.Ready ∧ w.Small ∧ w.store.Plain := by
  refine Run.invariant hrun (P := fun w => w.Ready ∧ w.Small ∧ w.store.Plain)
    ⟨⟨World.sound_empty, nofun⟩, nofun, nofun⟩ fun e he ⟨hready, _, hplain⟩ hstep => ?_
  have hcalm := hcalm e he
  exact ⟨hcalm.ready_of_step hready hstep, hcalm.small,
    (hcalm.store_step hready hstep).plain hplain⟩

/-- A text that says at most one form with at most as many nodes as there are keys is parsed into a
small tree. -/
theorem parse_small {text : String}
    (htext : tokensOf text = [] ∨
      ∃ form : Form String, tokensOf text = form.tokens ∧ form.size ≤ 2 ^ 32) :
    ∃ tree, Answers (fun fuel => parse fuel text) (.ok tree) ∧
      tree.nodes.slots.length ≤ 2 ^ 32 := by
  rcases htext with htext | ⟨form, htext, hsize⟩
  · obtain ⟨tree, hbare⟩ : ∃ tree, Tree.newBare = .ok tree := ⟨_, rfl⟩
    refine ⟨tree, parse_empty htext hbare, ?_⟩
    rw [newBare_eq hbare]
    decide
  · obtain ⟨tree, hanswers, -, hslots⟩ := parse_single htext
    exact ⟨tree, hanswers, hslots ▸ hsize⟩

/-- `repr` keeps the trees small. -/
theorem small_of_repr (hstep : ApiStep w ⟨.repr self, r⟩ w') (hsmall : w.Small) : w'.Small := by
  rcases hstep.cases with ⟨-, rfl⟩ | ⟨fuel, v, -, heffect⟩
  · exact hsmall
  · refine heffect.forall_tree (fun self' h tree tree' _ _ hwrite _ hfits => ?_)
      (fun tree hcreate _ => by cases hcreate) hsmall
    cases hwrite with
    | cache => exact hfits
    | alloc hc => cases hc
    | attach hop => cases hop
    | remove hc => cases hc

namespace World.Ready

variable {p p' : Place NodeId} {text : String}

/-- A step that bumps no version is one of the store, and leads to a world that is ready. -/
theorem step (hready : w.Ready) (hbumps : c.bumps = false) (hsmall : w'.Small)
    (hstep : ApiStep w ⟨c, r⟩ w') : w'.Ready ∧ w.store.Step ⟨c, r⟩ w'.store := by
  have hcalm : ApiEvent.Calm ⟨w, ⟨c, r⟩, w'⟩ := .of_not_bumps hbumps hsmall
  exact ⟨hcalm.ready_of_step hready hstep, hcalm.store_step hready hstep⟩

/-- **`repr` returns the text of a node**, and leaves the store as it is. -/
theorem repr_step (hready : w.Ready) (hsmall : w.Small) (hself : self < w.handles.length)
    (huse : w.store.use self = .ok p) :
    ∃ w', ApiStep w ⟨.repr self, .ok (.str (p.document.text p.node))⟩ w' ∧
      w'.store = w.store ∧ w'.Small ∧ w'.Ready := by
  obtain ⟨r, w', hanswers⟩ := call_finishes hready.sound (c := .repr self)
    ⟨by simpa [Call.handles] using hself, nofun⟩ nofun (Call.attachesOnly_of_not_bumps rfl)
  have hstep : ApiStep w ⟨.repr self, r⟩ w' := hanswers.exists_fuel
  have hsmall' := small_of_repr hstep hsmall
  obtain ⟨hready', hstore⟩ := hready.step rfl hsmall' hstep
  obtain ⟨rfl, hsame⟩ := hstore.repr_eq huse
  exact ⟨w', hstep, hsame, hsmall', hready'⟩

/-- **Two nodes with the same form are equal.** -/
theorem eq_step (hready : w.Ready) (hself : self < w.handles.length)
    (hother : other < w.handles.length) (huse : w.store.use self = .ok p)
    (huse' : w.store.use other = .ok p')
    (hform : p.document.form p.node = p'.document.form p'.node) :
    ApiStep w ⟨.eq self (.sexp other), .ok (.bool true)⟩ w := by
  obtain ⟨r, w', hanswers⟩ := call_finishes hready.sound (c := .eq self (.sexp other))
    ⟨by simpa [Call.handles, PyArg.handles] using ⟨hself, hother⟩, nofun⟩ nofun
    (Call.attachesOnly_of_not_bumps rfl)
  obtain ⟨fuel, hfuel⟩ := hanswers.exists_fuel
  obtain rfl : w' = w := Call.readOnly_of_looks rfl fuel _ _ _ hfuel
  have hstep : ApiStep w' ⟨.eq self (.sexp other), r⟩ w' := ⟨fuel, hfuel⟩
  obtain ⟨rfl, -⟩ := (Sexp.eq_step hstep hready.sound).eq_of_form huse huse' hform
  exact hstep

/-- **`parse` returns the root of a new document**, when the text says at most one small form. -/
theorem parse_step (hready : w.Ready) (hsmall : w.Small)
    (htext : tokensOf text = [] ∨
      ∃ form : Form String, tokensOf text = form.tokens ∧ form.size ≤ 2 ^ 32) :
    ∃ w', ApiStep w ⟨.parse (.str text), .ok (.sexp w.handles.length)⟩ w' ∧
      w.store.Step ⟨.parse (.str text), .ok (.sexp w.handles.length)⟩ w'.store ∧
      w'.Small ∧ w'.Ready := by
  obtain ⟨copy, hparse, hfits⟩ := parse_small htext
  have hanswers : Answers (fun fuel => pyParse fuel (.str text) w)
      (.ok w.handles.length, w.push copy) :=
    .bind (.bind hparse (.const fun _ => rfl)) (.const fun _ => rfl)
  have hstep : ApiStep w ⟨.parse (.str text), .ok (.sexp w.handles.length)⟩ (w.push copy) :=
    (PyM.map_answers hanswers Value.sexp).exists_fuel
  have hsmall' : (w.push copy).Small := fun t ht =>
    (List.mem_append.mp ht).elim (hsmall t) fun hmem => List.mem_singleton.mp hmem ▸ hfits
  obtain ⟨hready', hstore⟩ := hready.step rfl hsmall' hstep
  exact ⟨_, hstep, hstore, hsmall', hready'⟩

end World.Ready

/-- **Parsing the text of a node gives an equal node.** At the end of every calm run, for every
handle that is not stale and has clean atoms at and below its node: `repr` returns a text, `parse`
accepts it, the new handle is equal to the first one, and has the same text. -/
theorem reparse_equal (hrun : ApiRun events w) (hcalm : ∀ e ∈ events, e.Calm)
    (hrec : w.Receives self h tree)
    (hclean : ∀ m node value, tree.AncestorOrSelf h.node m → tree.nodes.get m = some node →
      node.kind = .atom value → CleanAtom value.asStr) :
    ∃ text w₁ w₂ w₃, ApiStep w ⟨.repr self, .ok (.str text)⟩ w₁ ∧
      ApiStep w₁ ⟨.parse (.str text), .ok (.sexp w.handles.length)⟩ w₂ ∧
      ApiStep w₂ ⟨.eq w.handles.length (.sexp self), .ok (.bool true)⟩ w₂ ∧
      ApiStep w₂ ⟨.repr w.handles.length, .ok (.str text)⟩ w₃ := by
  obtain ⟨hready, hsmall, hplain⟩ := plain_of_run hrun hcalm
  have hself := (List.getElem?_eq_some_iff.mp hrec.handle_eq).1
  have hdenotes := (hready.sound.receiver hrec).1.document_denotes (hready.sound.live hrec)
  have hclean := hdenotes.cleanTokens hclean
  have huse := World.use_of_receives hrec
  -- `repr` leaves the store as it is
  obtain ⟨w₁, hstep₁, hsame, hsmall₁, hready₁⟩ := hready.repr_step hsmall hself huse
  rw [← hsame] at huse hplain
  have hlength : w₁.handles.length = w.handles.length := by
    rw [← World.length_refs_store, hsame, World.length_refs_store]
  -- `parse` creates a document that the text says
  have htokens : tokensOf (tree.document.text h.node) = [] ∨ ∃ form : Form String,
      tokensOf (tree.document.text h.node) = form.tokens ∧ form.size ≤ 2 ^ 32 := by
    rw [Document.text]
    split
    · exact .inl (by simp [tokensOf])
    · exact .inr ⟨_, tokensOf_print hclean, hdenotes.size_le⟩
  obtain ⟨w₂, hstep₂, hstore₂, hsmall₂, hready₂⟩ := hready₁.parse_step hsmall₁ htokens
  obtain ⟨d, -, hpush, hform, htext⟩ := hstore₂.reads_text hplain huse hclean
  -- its root and the node have the same form and the same text
  have hnew := Store.use_push w₁.store d
  rw [← hpush, World.length_refs_store] at hnew
  have hold := Store.use_push_of_use huse d
  rw [← hpush] at hold
  have hexists : w₁.handles.length < w₂.handles.length := by
    rw [← World.length_refs_store, ← World.length_refs_store, hpush, Store.push,
      List.length_append]
    exact Nat.lt_succ_self _
  have hstep₃ := hready₂.eq_step hexists ((hlength ▸ hself).trans hexists) hnew hold hform
  obtain ⟨w₃, hstep₄, -⟩ := hready₂.repr_step hsmall₂ hexists hnew
  rw [htext] at hstep₄
  rw [hlength] at hstep₂ hstep₃ hstep₄
  exact ⟨_, w₁, w₂, w₃, hstep₁, hstep₂, hstep₃, hstep₄⟩

/-- `reparse_equal` at the run `t = parse("((a (b)) c ())")`, for `t`. -/
theorem reparse_equal_parsed :
    ∃ text w₁ w₂ w₃, ApiStep parsedMixed ⟨.repr 0, .ok (.str text)⟩ w₁ ∧
      ApiStep w₁ ⟨.parse (.str text), .ok (.sexp 1)⟩ w₂ ∧
      ApiStep w₂ ⟨.eq 1 (.sexp 0), .ok (.bool true)⟩ w₂ ∧
      ApiStep w₂ ⟨.repr 1, .ok (.str text)⟩ w₃ := by
  have hrec : parsedMixed.Receives 0 ⟨0, ⟨0⟩, 0⟩ mixedTree := ⟨rfl, rfl, rfl⟩
  exact reparse_equal run_parsed eventsParsed_calm hrec fun m node value _ hm hatom =>
    mixedTree_cleanAtom hm hatom

end Sexp
