import Sexp.Parse.Lexing
import Sexp.Py.Api
import Sexp.Reference.Document

/-! # The reference store

What the library is for, stated without trees in memory: documents, references to their nodes, and
cursors over child lists that have been fixed when the cursor was created. A call asks for something
(`Request`) or is refused with an exception (`Store.plan`); what it asks for is then performed
(`Store.Performs`).

There are no versions. A change of the structure of a document makes every reference to it invalid,
except for those to its root and the one that the change has been made through, and every cursor
that has not reached its end. -/

namespace Sexp.Reference

open Library (OrderedForest Rose Form insertRight)

variable {ι : Type}

/-- **A reference** to a node of a document. -/
structure Ref (ι : Type) where
  /-- The document. -/
  doc : ℕ
  /-- The node. -/
  node : ι
  /-- Whether the reference may be used. -/
  valid : Bool

/-- **A cursor** over nodes of a document. -/
structure Cursor (ι : Type) where
  /-- The document. -/
  doc : ℕ
  /-- What is left; nothing is known of it when the document has been changed before the end. -/
  rest : Option (List ι)

/-- **The store**: documents, references and cursors, in the order of their creation. -/
structure Store (ι : Type) where
  /-- The documents. -/
  docs : List (Document ι)
  /-- The references. -/
  refs : List (Ref ι)
  /-- The cursors. -/
  cursors : List (Cursor ι)

/-- The store before the first call. -/
def Store.empty : Store ι := ⟨[], [], []⟩

/-- **A place**: a node of a document. -/
structure Place (ι : Type) where
  /-- The number of the document. -/
  doc : ℕ
  /-- The document. -/
  document : Document ι
  /-- The node. -/
  node : ι

namespace Place

variable (p : Place ι)

/-- The children of the node. -/
def children : List ι := p.document.forest.children p.node

end Place

/-! ## Requests -/

/-- **What a call asks for.** -/
inductive Request (ι : Type) where
  /-- A value. -/
  | look (value : Value)
  /-- A reference to a node of a document. -/
  | point (doc : ℕ) (node : ι)
  /-- References to nodes of a document. -/
  | points (doc : ℕ) (nodes : List ι)
  /-- A cursor over nodes of a document. -/
  | walk (doc : ℕ) (nodes : List ι)
  /-- The next node of a cursor, with what is left behind it. -/
  | advance (cursor : IterRef) (doc : ℕ) (node : ι) (rest : List ι)
  /-- Another text for an atom. -/
  | assign (place : Place ι) (text : String)
  /-- A new node. -/
  | alloc (place : Place ι) (content : Content)
  /-- Moving a node below the one of the reference `self`. -/
  | attach (self : HandleRef) (place : Place ι) (child : ι) (put : List ι → List ι)
  /-- Deleting the node of the reference `self`. -/
  | remove (self : HandleRef) (place : Place ι)
  /-- A new document. -/
  | create (nodes : Rose (Option Content)) (blank : Bool)
  /-- A copy of a document. -/
  | copy (document : Document ι)
  /-- Deleting the node of the reference `self`, and a new document of these nodes. -/
  | extract (self : HandleRef) (place : Place ι) (nodes : Rose (Option Content))

/-- The entry at an index; a negative one counts from the end. -/
def pick (l : List ι) (index : ℤ) : Option ι :=
  if 0 ≤ index then l[index.toNat]?
  else if 0 ≤ l.length + index then l[(l.length + index).toNat]?
  else none

/-- There is no entry at an index outside of the list. -/
theorem pick_eq_none {l : List ι} {index : ℤ} (h : pick l index = none) :
    index < -l.length ∨ l.length ≤ index := by
  unfold pick at h
  split at h
  · rw [List.getElem?_eq_none_iff] at h
    omega
  · split at h
    · rw [List.getElem?_eq_none_iff] at h
      omega
    · omega

/-- The entry at an index is the one at the place that the index means. -/
theorem pick_eq_some {l : List ι} {index : ℤ} {x : ι} (h : pick l index = some x) :
    ∃ j : ℕ, SExp.realIndex l.length index = j ∧ l[j]? = some x := by
  unfold pick at h
  unfold SExp.realIndex
  split at h
  · exact ⟨index.toNat, by rw [if_neg (by omega)]; omega, h⟩
  · split at h
    · exact ⟨(l.length + index).toNat, by rw [if_pos (by omega)]; omega, h⟩
    · cases h

/-- **What a text says**: nothing, or one form. -/
def readText (text : String) : Except PyErr (Option (Form String)) :=
  match Library.read [] [] (tokensOf text) with
  | none => .error (.parseError "stray closing parenthesis")
  | some (_, _ :: _) => .error (.parseError "unclosed parenthesis")
  | some ([], []) => .ok none
  | some ([form], []) => .ok (some form)
  | some (_ :: _ :: _, []) => .error (.parseError "multiple top-level forms")

/-- What an argument of `parse` says. -/
def readSource : PySource → Except PyErr (Option (Form String))
  | .str text => readText text
  | .bytes bytes =>
      match String.fromUTF8? bytes with
      | some text => readText text
      | none => .error (.parseError "input is not valid UTF-8")
  | .object => .error (.typeError "expected str, bytes, or bytearray")

namespace Store

/-- **The place of a reference**, which must be valid. -/
def use (s : Store ι) (ref : HandleRef) : Except PyErr (Place ι) :=
  match s.refs[ref]? with
  | some ⟨doc, node, true⟩ =>
      match s.docs[doc]? with
      | some document => .ok ⟨doc, document, node⟩
      | none => .error staleError
  | _ => .error staleError

/-- Another reference to the document of `self`, valid or not. -/
def mate (s : Store ι) (self other : HandleRef) : Except PyErr (Ref ι) :=
  match s.refs[self]?, s.refs[other]? with
  | some r, some o =>
      if r.doc = o.doc then .ok o else .error (.valueError "node belongs to a different tree")
  | _, _ => .error staleError

/-- An optional reference to the document of `self`. -/
def mate? (s : Store ι) (self : HandleRef) : Option HandleRef → Except PyErr (Option (Ref ι))
  | none => return none
  | some other => some <$> s.mate self other

/-- Whether an item is in the child list of a place. -/
def holds [DecidableEq ι] (s : Store ι) (p : Place ι) : PyArg → Except PyErr Bool
  | .sexp other =>
      if (s.refs[other]?).any fun o => p.doc = o.doc then do
        let q ← s.use other
        return decide (q.node ∈ p.children)
      else return false
  | .str text => return p.children.any fun c => p.document.atomText c = some text
  | .object => return false

open Classical in
/-- **What a call asks for**, or the exception with which it is refused. -/
noncomputable def plan [Finite ι] [DecidableEq ι] (s : Store ι) : Call → Except PyErr (Request ι)
  | .parse source => do
      match ← readSource source with
      | none => return .create (.node (some .list) []) true
      | some form => return .create (contentsOf form) false
  | .new => return .create (.node (some .list) []) false
  | .repr self => do
      let p ← s.use self
      return .look (.str (p.document.text p.node))
  | .len self => do
      let p ← s.use self
      return .look (.int p.children.length)
  | .eq self (.sexp other) => do
      let p ← s.use self
      let q ← s.use other
      return .look (.bool (p.document.form p.node = q.document.form q.node))
  | .eq _ _ => return .look (.bool false)
  | .contains self item => do
      let p ← s.use self
      return .look (.bool (← s.holds p item))
  | .getItem self (.int index) =>
      if index < -(2 ^ 63) ∨ 2 ^ 63 ≤ index then .error .overflowError
      else do
        let p ← s.use self
        match pick p.children index with
        | some c => return .point p.doc c
        | none => .error (.indexError "index out of range")
  | .getItem self (.str key) => do
      let p ← s.use self
      match p.children.find? fun c => p.document.Selects key c with
      | some c => return .point p.doc c
      | none => .error (.keyError ("no child '" ++ key ++ "'"))
  | .getItem self (.slice start stop step) => do
      let p ← s.use self
      match SExp.sliceIndices p.children.length start stop step with
      | some places => return .points p.doc (places.filterMap (p.children[·]?))
      | none => .error (.valueError "slice step cannot be zero")
  | .getItem self (.object typeName) => do
      let _ ← s.use self
      .error (.typeError ("list indices must be integers or slices, not " ++ typeName))
  | .iter self => do
      let p ← s.use self
      return .walk p.doc p.children
  | .next cursor =>
      match s.cursors[cursor]? with
      | some ⟨_, some []⟩ => return .look .none
      | some ⟨doc, some (n :: rest)⟩ => return .advance cursor doc n rest
      | _ => .error staleError
  | .head self => do
      let p ← s.use self
      match p.children.head? with
      | some c => return .point p.doc c
      | none => .error (.indexError "expression is empty")
  | .tail self => do
      let p ← s.use self
      return .walk p.doc p.children.tail
  | .isAtom self => do
      let p ← s.use self
      return .look (.bool (p.document.atomText p.node).isSome)
  | .value self => do
      let p ← s.use self
      match p.document.atomText p.node with
      | some text => return .look (.str text)
      | none => .error (.typeError "list node has no value")
  | .setValue self text => do
      let p ← s.use self
      match p.document.atomText p.node with
      | some _ => return .assign p text
      | none => .error (.typeError "cannot set value on a list node")
  | .parent self => do
      let p ← s.use self
      match p.document.forest.parent p.node with
      | some q => return .point p.doc q
      | none => return .look .none
  | .newAtom self text => do
      let p ← s.use self
      return .alloc p (.atom text)
  | .newList self => do
      let p ← s.use self
      return .alloc p .list
  | .append self child => do
      let c ← s.mate self child
      let p ← s.use self
      return .attach self p c.node fun l => l ++ [c.node]
  | .prepend self child => do
      let c ← s.mate self child
      let p ← s.use self
      return .attach self p c.node fun l => c.node :: l
  | .insertAfter self after child => do
      let c ← s.mate self child
      let a ← s.mate? self after
      let p ← s.use self
      match a with
      | none => return .attach self p c.node fun l => c.node :: l
      | some a =>
          if a.valid then return .attach self p c.node (insertRight a.node c.node)
          else .error staleError
  | .remove self => do
      let p ← s.use self
      if p.node = p.document.root then .error (.valueError "cannot remove the root node")
      else return .remove self p
  | .clone self => do
      let p ← s.use self
      if p.node = p.document.root then return .copy p.document
      else return .create (copied (p.document.contents p.node)) false
  | .extract self => do
      let p ← s.use self
      if p.node = p.document.root then .error (.valueError "cannot extract the root node")
      else return .extract self p (copied (p.document.contents p.node))

/-! ## Performing requests -/

/-- What a call returns that asks for something. -/
def value (s : Store ι) : Request ι → Value
  | .look value => value
  | .points _ nodes => .list ((List.range nodes.length).map (s.refs.length + ·))
  | .walk _ _ => .iter s.cursors.length
  | .assign _ _ | .attach _ _ _ _ | .remove _ _ => .none
  | .point _ _ | .advance _ _ _ _ | .alloc _ _ | .create _ _ | .copy _ | .extract _ _ _ =>
      .sexp s.refs.length

/-- More valid references to nodes of a document. -/
def pointing (s : Store ι) (doc : ℕ) (nodes : List ι) : Store ι :=
  { s with refs := s.refs ++ nodes.map fun n => ⟨doc, n, true⟩ }

/-- One more document, with a reference to its root. -/
def push (s : Store ι) (document : Document ι) : Store ι :=
  { s with
    docs := s.docs ++ [document]
    refs := s.refs ++ [⟨s.docs.length, document.root, true⟩] }

/-- A document with other contents and the structure that it has had. -/
def setDoc (s : Store ι) (doc : ℕ) (document : Document ι) : Store ι :=
  { s with docs := s.docs.set doc document }

/-- Writing the document that is there changes nothing. -/
theorem setDoc_self {s : Store ι} {doc : ℕ} {document : Document ι}
    (h : s.docs[doc]? = some document) : s.setDoc doc document = s := by
  obtain ⟨hlt, rfl⟩ := List.getElem?_eq_some_iff.mp h
  rw [setDoc, List.set_getElem_self]

/-- **A document with another structure**, which it has been given through the reference `self`.
Valid references to it are those to its root, and `self` if its node is live; cursors over it that
have not reached their end are lost. -/
def restructure [DecidableEq ι] (s : Store ι) (self : HandleRef) (doc : ℕ)
    (document : Document ι) : Store ι where
  docs := s.docs.set doc document
  refs := s.refs.mapIdx fun i r =>
    if r.doc = doc then
      { r with
        valid := r.node = document.root || i = self && (document.forest.label r.node).isSome }
    else r
  cursors := s.cursors.map fun c =>
    if c.doc = doc then { c with rest := c.rest.filter List.isEmpty } else c

/-- **Performing a request.** -/
inductive Performs [Finite ι] [DecidableEq ι] (s : Store ι) : Request ι → Store ι → Prop where
  /-- A value. -/
  | look {value : Value} : Performs s (.look value) s
  /-- A reference. -/
  | point {doc : ℕ} {n : ι} : Performs s (.point doc n) (s.pointing doc [n])
  /-- References. -/
  | points {doc : ℕ} {nodes : List ι} : Performs s (.points doc nodes) (s.pointing doc nodes)
  /-- A cursor. -/
  | walk {doc : ℕ} {nodes : List ι} :
      Performs s (.walk doc nodes) { s with cursors := s.cursors ++ [⟨doc, some nodes⟩] }
  /-- A cursor yields a node. -/
  | advance {cursor : IterRef} {doc : ℕ} {n : ι} {rest : List ι} :
      Performs s (.advance cursor doc n rest)
        ({ s with cursors := s.cursors.set cursor ⟨doc, some rest⟩ }.pointing doc [n])
  /-- Another text. -/
  | assign {p : Place ι} {text : String} :
      Performs s (.assign p text) (s.setDoc p.doc (p.document.put p.node (.atom text)))
  /-- A new node, with a name that is not in use. -/
  | alloc {p : Place ι} {content : Content} {n : ι} (hnew : ¬ p.document.Live n) :
      Performs s (.alloc p content)
        ((s.setDoc p.doc (p.document.put n content)).pointing p.doc [n])
  /-- A node moves. -/
  | attach {self : HandleRef} {p : Place ι} {child : ι} {put : List ι → List ι} {d : Document ι}
      (hmoves : p.document.Moves d p.node child put) :
      Performs s (.attach self p child put) (s.restructure self p.doc d)
  /-- A node is deleted. -/
  | remove {self : HandleRef} {p : Place ι} {d : Document ι}
      (hdeletes : p.document.Deletes d p.node) :
      Performs s (.remove self p) (s.restructure self p.doc d)
  /-- A new document. -/
  | create {nodes : Rose (Option Content)} {blank : Bool} {d : Document ι}
      (hholds : d.Holds nodes blank) : Performs s (.create nodes blank) (s.push d)
  /-- A copy of a document. -/
  | copy {d : Document ι} : Performs s (.copy d) (s.push d)
  /-- A node is deleted, after its nodes have been copied. -/
  | extract {self : HandleRef} {p : Place ι} {nodes : Rose (Option Content)} {d copy : Document ι}
      (hdeletes : p.document.Deletes d p.node) (hholds : copy.Holds nodes false) :
      Performs s (.extract self p nodes) ((s.restructure self p.doc d).push copy)

/-- **A step of the store**: a call is refused, which changes nothing, or what it asks for is
performed. -/
inductive Step [Finite ι] [DecidableEq ι] (s : Store ι) : CallResult → Store ι → Prop where
  /-- The call raises. -/
  | refuse {c : Call} {e : PyErr} (hplan : s.plan c = .error e) : Step s ⟨c, .error e⟩ s
  /-- The call returns. -/
  | perform {c : Call} {q : Request ι} {s' : Store ι} (hplan : s.plan c = .ok q)
      (hperforms : s.Performs q s') : Step s ⟨c, .ok (s.value q)⟩ s'

end Store

end Sexp.Reference
