import Sexp.Library.Form
import Sexp.Library.ForestValue
import Sexp.Serialize.Printing

/-! # Documents

What a tree is for, without links, slots, versions and caches: an ordered forest of atoms and lists
with a distinguished live node, its root. Nodes are told apart by names from any finite type; a name
that is not live may be given to a new node. -/

namespace Sexp.Reference

open Library (OrderedForest Rose Form)

/-- What a node is: an atom with its text, or a list. -/
inductive Content where
  /-- An atom. -/
  | atom (text : String)
  /-- A list. -/
  | list
  deriving DecidableEq

/-- The text of an atom. -/
def Content.text : Content → Option String
  | .atom text => some text
  | .list => none

/-- **A document** with names from `ι`. -/
structure Document (ι : Type) where
  /-- The nodes, attached or not. -/
  forest : OrderedForest ι Content
  /-- The root. -/
  root : ι
  /-- The root is live. -/
  root_live : (forest.label root).isSome
  /-- Whether the document has been read from a text without tokens. -/
  blank : Bool

/-- The form of a node with this content over these forms: an atom hides what is below it. -/
def formAt : Option Content → List (Form String) → Form String
  | some (.atom text), _ => .atom text
  | _, forms => .list forms

/-- The nodes of a form. -/
def contentsOf : Form String → Rose (Option Content)
  | .atom text => .node (some (.atom text)) []
  | .list forms => .node (some .list) (contentsAll forms)
where
  /-- The nodes of the members of a list. -/
  contentsAll : List (Form String) → List (Rose (Option Content))
    | [] => []
    | form :: forms => contentsOf form :: contentsAll forms

@[simp] theorem contentsOf_list (forms : List (Form String)) :
    contentsOf (.list forms) = .node (some .list) (forms.map contentsOf) := by
  rw [contentsOf]
  induction forms with
  | nil => rfl
  | cons form forms ih =>
      rw [contentsOf.contentsAll, List.map_cons]
      simp only [Rose.node.injEq, true_and] at ih ⊢
      rw [ih]

/-- The nodes that a copy takes along: an atom is copied without what hangs below it. -/
def copied : Rose (Option Content) → Rose (Option Content)
  | .node (some (.atom text)) _ => .node (some (.atom text)) []
  | r => r

namespace Document

variable {ι : Type} {d d' : Document ι} {n m p c : ι}

/-- Two documents with the same nodes and the same root are equal. -/
theorem ext (hforest : d.forest = d'.forest) (hroot : d.root = d'.root)
    (hblank : d.blank = d'.blank) : d = d' := by
  cases d
  cases d'
  simp only at hforest hroot hblank
  subst hforest hroot hblank
  rfl

/-- A node is live. -/
def Live (d : Document ι) (n : ι) : Prop := (d.forest.label n).isSome

/-- The text of an atom node. -/
def atomText (d : Document ι) (n : ι) : Option String := (d.forest.label n).bind Content.text

/-- **A string key selects a node**: it is an atom with this text, or its first child is one. -/
def Selects (d : Document ι) (key : String) (n : ι) : Prop :=
  d.atomText ((d.forest.children n).headD n) = some key

instance (d : Document ι) (key : String) (n : ι) : Decidable (d.Selects key n) :=
  inferInstanceAs (Decidable (_ = _))

section Reading

variable [Finite ι]

/-- **The form of a node.** -/
noncomputable def form (d : Document ι) (n : ι) : Form String := d.forest.value formAt n

/-- The contents in the subtree of a node. -/
noncomputable def contents (d : Document ι) (n : ι) : Rose (Option Content) :=
  d.forest.value Rose.node n

/-- The form is made of the contents. -/
theorem form_eq_fold (d : Document ι) (n : ι) : d.form n = (d.contents n).fold formAt :=
  OrderedForest.value_eq_fold

open Classical in
/-- **The text of a node**: nothing for the root of a blank document without children, and else the
printed form. -/
noncomputable def text (d : Document ι) (n : ι) : String :=
  if d.blank ∧ n = d.root ∧ d.forest.children n = [] then "" else print (d.form n)

end Reading

section Editing

variable [DecidableEq ι]

/-- **A node is given this content**, and is new if it has not been live. -/
def put (d : Document ι) (n : ι) (content : Content) : Document ι where
  forest := d.forest.setLabel n content
  root := d.root
  root_live := by
    simp only [OrderedForest.setLabel]
    split
    · rfl
    · exact d.root_live
  blank := d.blank

/-- **The subtree of `c` moves under `p`**, to the place among the other children that `place`
gives. -/
structure Moves (d d' : Document ι) (p c : ι) (place : List ι → List ι) : Prop where
  /-- The nodes. -/
  forest : d.forest.Moves d'.forest p c place
  /-- The root stays. -/
  root : d'.root = d.root
  /-- A blank document stays blank. -/
  blank : d'.blank = d.blank

/-- **The subtree of `n` is deleted.** -/
structure Deletes (d d' : Document ι) (n : ι) : Prop where
  /-- The nodes. -/
  forest : d.forest.Deletes d'.forest n
  /-- The root stays. -/
  root : d'.root = d.root
  /-- A blank document stays blank. -/
  blank : d'.blank = d.blank

/-- **A document that consists of these nodes**, of which the first is the root. -/
structure Holds [Finite ι] (d : Document ι) (nodes : Rose (Option Content)) (blank : Bool) :
    Prop where
  /-- The nodes below the root. -/
  contents : d.contents d.root = nodes
  /-- Every live node is below the root. -/
  below : ∀ n, d.Live n → n ∈ d.forest.subtree d.root
  /-- Whether it is blank. -/
  blank : d.blank = blank

end Editing

end Document

end Sexp.Reference
