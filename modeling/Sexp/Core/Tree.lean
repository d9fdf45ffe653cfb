import Sexp.Memory.Atom
import Sexp.Memory.Slab

/-! # Nodes and trees

`core/node.rs` and `core/tree.rs`: a tree owns a slab of nodes that are linked to their parent,
their first and last child and their siblings. The version counter and the cached serialization
serve the Python layer. The constructors with a capacity differ from `new` only in performance. -/

namespace Sexp

/-- A typed index into the node slab of a tree. -/
abbrev NodeId := Key

/-- The content of a node: a leaf atom or an interior list. -/
inductive NodeType where
  /-- An atom. -/
  | atom (value : Atom)
  /-- A list. -/
  | list
  deriving DecidableEq

/-- A single node of a tree. -/
structure Node where
  /-- The content. -/
  kind : NodeType
  /-- The node this one is a child of. -/
  parent : Option NodeId
  /-- The first child. -/
  firstChild : Option NodeId
  /-- The last child. -/
  lastChild : Option NodeId
  /-- The child of the same parent before this one. -/
  previousSibling : Option NodeId
  /-- The child of the same parent after this one. -/
  nextSibling : Option NodeId
  /-- The number of children. -/
  childCount : UInt32
  deriving DecidableEq

namespace Node

/-- A new unlinked node with this content. -/
def unlinked (kind : NodeType) : Node where
  kind := kind
  parent := none
  firstChild := none
  lastChild := none
  previousSibling := none
  nextSibling := none
  childCount := 0

/-- Creates a new unlinked atom node. -/
def newAtom (value : Atom) : Node := unlinked (.atom value)

/-- Creates a new unlinked list node. -/
def newList : Node := unlinked .list

/-- Whether this is an atom node. -/
def isAtom (node : Node) : Bool :=
  match node.kind with
  | .atom _ => true
  | .list => false

/-- The atom value, or `none` if this is a list node. -/
def atomValue (node : Node) : Option Atom :=
  match node.kind with
  | .atom atom => some atom
  | .list => none

end Node

/-- A tree: the node slab of a single S-expression, with its root. -/
structure Tree where
  /-- The nodes. -/
  nodes : Slab Node
  /-- The root node. -/
  root : NodeId
  /-- The staleness version. -/
  version : UInt64
  /-- Whether the tree was produced by parsing an empty string. -/
  bare : Bool
  /-- The cached serialization: the node, the version it was made at, and the text. -/
  reprCache : Option (NodeId × UInt64 × String)
  deriving DecidableEq

namespace Tree

/-- Assembles a tree from a pre-built slab and a root node id. -/
def fromRaw (nodes : Slab Node) (root : NodeId) : Tree where
  nodes := nodes
  root := root
  version := 0
  bare := false
  reprCache := none

/-- Creates a tree containing only an empty root list node (repr `"()"`). -/
def new : Exec Tree := do
  let (nodes, root) ← Slab.new.insert Node.newList
  return fromRaw nodes root

/-- Creates the implicit empty tree produced by parsing an empty string (repr `""`). -/
def newBare : Exec Tree := do
  let (nodes, root) ← Slab.new.insert Node.newList
  return { fromRaw nodes root with bare := true }

/-- Increments the version; a `u64` that wraps around. -/
def bumpVersion (tree : Tree) : Tree := { tree with version := tree.version + 1 }

/-- The cached serialization of `node` if still valid for the current version. -/
def cachedRepr (tree : Tree) (node : NodeId) : Option String :=
  match tree.reprCache with
  | some (id, version, text) => if version = tree.version ∧ id = node then some text else none
  | none => none

/-- Stores `text` as the cached serialization of `node` at the current version. -/
def setReprCache (tree : Tree) (node : NodeId) (text : String) : Tree :=
  { tree with reprCache := some (node, tree.version, text) }

/-- Clears the cached serialization without bumping the version. -/
def clearReprCache (tree : Tree) : Tree := { tree with reprCache := none }

/-- Whether `id` refers to a live node of the tree. -/
def containsNode (tree : Tree) (id : NodeId) : Bool := (tree.nodes.get id).isSome

/-- Allocates an unattached atom node and returns its id. -/
def allocAtom (tree : Tree) (value : Atom) : Exec (Tree × NodeId) := do
  let (nodes, id) ← tree.nodes.insert (Node.newAtom value)
  return ({ tree with nodes }, id)

/-- Allocates an unattached list node and returns its id. -/
def allocList (tree : Tree) : Exec (Tree × NodeId) := do
  let (nodes, id) ← tree.nodes.insert Node.newList
  return ({ tree with nodes }, id)

/-- The node at `id`; panics if `id` is stale. -/
def get (tree : Tree) (id : NodeId) : Exec Node := tree.nodes.index id

/-- The number of nodes currently in the tree, including the root. -/
def len (tree : Tree) : Nat := tree.nodes.len

/-- The first child of `parent`. -/
def firstChild (tree : Tree) (parent : NodeId) : Exec (Option NodeId) := do
  return (← tree.get parent).firstChild

/-- The last child of `parent`. -/
def lastChild (tree : Tree) (parent : NodeId) : Exec (Option NodeId) := do
  return (← tree.get parent).lastChild

/-- The next sibling of `node`. -/
def nextSibling (tree : Tree) (node : NodeId) : Exec (Option NodeId) := do
  return (← tree.get node).nextSibling

/-- The previous sibling of `node`. -/
def prevSibling (tree : Tree) (node : NodeId) : Exec (Option NodeId) := do
  return (← tree.get node).previousSibling

/-- The parent of `node`. -/
def parent (tree : Tree) (node : NodeId) : Exec (Option NodeId) := do
  return (← tree.get node).parent

end Tree

end Sexp
