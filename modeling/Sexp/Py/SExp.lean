import Sexp.Py.Shared
import Sexp.Serialize.Serializer

/-! # The methods

`py/sexp.rs`, `py/iter.rs` and `py/parse_fn.rs`: the methods of handles and iterators and the
function `parse`. Arguments have the types that the methods tell apart; creating a Python object
cannot fail here. Where the source hands a key on to a Python list, the list behaviour is
`sliceIndices`. -/

namespace Sexp

/-- An argument of `==` and `in`. -/
inductive PyArg where
  /-- A handle. -/
  | sexp (ref : HandleRef)
  /-- A `str`. -/
  | str (value : String)
  /-- Any other object. -/
  | object

/-- A key of `[]`. -/
inductive PyKey where
  /-- An `int`. -/
  | int (value : Int)
  /-- A `str`. -/
  | str (value : String)
  /-- A slice. -/
  | slice (start stop step : Option Int)
  /-- An object that no list takes as an index, of a type with this name. -/
  | object (typeName : String)

/-- The name of the type of a key. -/
def PyKey.typeName : PyKey → String
  | .int _ => "int"
  | .str _ => "str"
  | .slice _ _ _ => "slice"
  | .object typeName => typeName

/-- An argument of `parse`. -/
inductive PySource where
  /-- A `str`. -/
  | str (value : String)
  /-- A `bytes` or `bytearray`, or a sequence of integers from `0` to `255`, which are taken as its
  bytes. -/
  | bytes (value : ByteArray)
  /-- An object that is extracted neither as text nor as bytes. -/
  | object

/-- The result of `[]`: one handle, or a list of handles for a slice. -/
inductive PyItem where
  /-- A handle. -/
  | sexp (ref : HandleRef)
  /-- A list of handles. -/
  | list (refs : List HandleRef)
  deriving DecidableEq, Repr

/-- Parses the text or the bytes of an argument of `parse`; raises for an object that has neither.
-/
def parseSource (fuel : Nat) : PySource → PyM (Except ParseError Tree)
  | .str s => PyM.lift (parse fuel s)
  | .bytes b => PyM.lift (parseBytes fuel b)
  | .object => PyM.raise (.typeError "expected str, bytes, or bytearray")

/-- Parses an S-expression from a `str`, `bytes`, or `bytearray`. -/
def pyParse (fuel : Nat) (source : PySource) : PyM HandleRef := do
  match ← parseSource fuel source with
  | .error error => .raise (rustParseError error)
  | .ok tree => .fromTree tree

namespace SExp

/-- Runs `f` on the tree of a handle and its node, unless the handle is stale. -/
def withTree {α : Type} (self : HandleRef) (f : Tree → NodeId → Exec (Except PyErr α)) :
    PyM α := do
  let h ← PyM.handle self
  let tree ← PyM.treeAt h.tree
  if h.isStale tree then .raise staleError
  else
    let result ← PyM.lift (f tree h.node)
    PyM.ofExcept result

/-- What `f` finds in a tree, together with the version of the tree. -/
def versioned {α : Type} (f : Tree → NodeId → Exec (Except PyErr α)) (tree : Tree)
    (node : NodeId) : Exec (Except PyErr (α × UInt64)) := do
  match ← f tree node with
  | .error e => return .error e
  | .ok a => return .ok (a, tree.version)

/-- Creates a handle in the tree of `self`. -/
def share (self : HandleRef) (node : NodeId) (version : UInt64) : PyM HandleRef := do
  let h ← PyM.handle self
  PyM.fromShared h.tree node version

/-- Creates handles in the tree of `self`. -/
def shareAll (self : HandleRef) (nodes : List NodeId) (version : UInt64) :
    PyM (List HandleRef) := do
  let h ← PyM.handle self
  PyM.fromSharedAll h.tree nodes version

/-- Creates an iterator in the tree of `self`. -/
def shareIter (self : HandleRef) (next : Option NodeId) (version : UInt64) : PyM IterRef := do
  let h ← PyM.handle self
  PyM.newIter h.tree next version

/-- Refreshes the snapshot of a handle, if its node is still live in the tree. -/
def refresh (self : HandleRef) (h : Handle) (tree : Tree) : PyM Unit :=
  if tree.containsNode h.node then PyM.setHandle self { h with version := tree.version }
  else return ()

/-- Runs `f`, which may write the tree, on the tree of a handle and its node, unless the handle is
stale. The snapshot of the handle is refreshed when `f` has not raised. -/
def withTreeMut {α : Type} (self : HandleRef)
    (f : Tree → NodeId → Exec (Except PyErr α × Tree)) : PyM α := do
  let h ← PyM.handle self
  let tree ← PyM.treeAt h.tree
  if h.isStale tree then .raise staleError
  else
    let (result, tree) ← PyM.lift (f tree h.node)
    PyM.setTree h.tree tree
    let a ← PyM.ofExcept result
    refresh self h tree
    return a

/-- Creates an empty list, equivalent to `parse("()")`. -/
def newEmpty : PyM HandleRef := do
  let tree ← PyM.lift Tree.new
  .fromTree tree

/-- Whether the text of a node is the empty one of a bare tree. -/
def isBareRoot (tree : Tree) (node : NodeId) : Exec Bool :=
  if tree.bare ∧ node = tree.root then do return (← tree.firstChild node).isNone
  else return false

/-- `__repr__`: the cached text if it is valid, else the serialization, which is then cached. -/
def repr (fuel : Nat) (self : HandleRef) : PyM String := do
  let h ← PyM.handle self
  let tree ← PyM.treeAt h.tree
  if h.isStale tree then .raise staleError
  else
    let bare ← PyM.lift (isBareRoot tree h.node)
    if bare then return ""
    else
      match tree.cachedRepr h.node with
      | some cached => return cached
      | none => withTreeMut self fun tree node => do
          let text ← serializeNode fuel tree node
          return (.ok text, tree.setReprCache node text)

/-- `__len__`. -/
def len (self : HandleRef) : PyM Nat :=
  withTree self fun tree node => do return .ok (← tree.get node).childCount.toNat

/-- `__eq__`: structural equality; an object that is no handle is never equal. -/
def eq (fuel : Nat) (self : HandleRef) : PyArg → PyM Bool
  | .sexp other => do
      let h ← PyM.handle self
      let o ← PyM.handle other
      if h.tree = o.tree then
        let tree ← PyM.treeAt h.tree
        if h.isStale tree || o.isStale tree then .raise staleError
        else PyM.lift (subtreesEqual fuel tree h.node tree o.node)
      else
        let selfTree ← PyM.treeAt h.tree
        if h.isStale selfTree then .raise staleError
        else
          let otherTree ← PyM.treeAt o.tree
          if o.isStale otherTree then .raise staleError
          else PyM.lift (subtreesEqual fuel selfTree h.node otherTree o.node)
  | _ => return false

/-- The first child of a node that satisfies the predicate. -/
def findChild (fuel : Nat) (tree : Tree) (node : NodeId) (p : NodeId → Exec Bool) :
    Exec (Option NodeId) := do
  let iter ← ChildIter.new tree node
  iter.find fuel tree p

/-- Whether a node is an atom with this text. -/
def isAtomOf (tree : Tree) (node : NodeId) (value : String) : Exec Bool := do
  match (← tree.get node).atomValue with
  | some atom => return atom.asStr = value
  | none => return false

/-- `__contains__`: a handle is looked up by its node, a `str` among the atom children. -/
def contains (fuel : Nat) (self : HandleRef) (item : PyArg) : PyM Bool := do
  let h ← PyM.handle self
  let tree ← PyM.treeAt h.tree
  if h.isStale tree then .raise staleError
  else
    match item with
    | .sexp other => do
        let o ← PyM.handle other
        if h.tree ≠ o.tree then return false
        else if o.isStale tree then .raise staleError
        else
          let found ← PyM.lift (findChild fuel tree h.node fun id => return id = o.node)
          return found.isSome
    | .str value => do
        let found ← PyM.lift (findChild fuel tree h.node fun id => isAtomOf tree id value)
        return found.isSome
    | .object => return false

/-- The place that an index means among `count` children; a negative index counts from the
end. -/
def realIndex (count index : Int) : Int := if index < 0 then count + index else index

/-- The child at an integer index. -/
def childAt (fuel : Nat) (tree : Tree) (node : NodeId) (index : Int) :
    Exec (Except PyErr NodeId) := do
  let count : Int := (← tree.get node).childCount.toNat
  if realIndex count index < 0 ∨ realIndex count index ≥ count then
    return .error (.indexError "index out of range")
  else
    let iter ← ChildIter.new tree node
    match ← iter.nth fuel tree (realIndex count index).toNat with
    | some child => return .ok child
    | none => .error (.panic .childCountInconsistent)

/-- Whether a child is selected by a string key: an atom with this text, or a node whose first child
is one. -/
def keyed (tree : Tree) (key : String) (id : NodeId) : Exec Bool := do
  match (← tree.get id).firstChild with
  | some first => isAtomOf tree first key
  | none => isAtomOf tree id key

/-- The first child that a string key selects. -/
def childByKey (fuel : Nat) (tree : Tree) (node : NodeId) (key : String) :
    Exec (Except PyErr NodeId) := do
  match ← findChild fuel tree node (keyed tree key) with
  | some child => return .ok child
  | none => return .error (.keyError ("no child '" ++ key ++ "'"))

/-- One bound of a slice of a list of length `len`, brought into range. -/
def sliceBound (len : Int) (step : Int) (fallback : Int) : Option Int → Int
  | none => fallback
  | some i =>
      let i := if i < 0 then i + len else i
      if step < 0 then max (-1) (min i (len - 1)) else max 0 (min i len)

/-- The places that a slice of a list of length `len` selects, in order; no result for the step
zero, for which Python raises. -/
def sliceIndices (len : Nat) (start stop step : Option Int) : Option (List Nat) :=
  let step := step.getD 1
  if step = 0 then none
  else if step < 0 then
    let first := sliceBound len step (len - 1) start
    let last := sliceBound len step (-1) stop
    some ((List.range ((first - last - step - 1) / -step).toNat).map fun k =>
      (first + step * k).toNat)
  else
    let first := sliceBound len step 0 start
    let last := sliceBound len step len stop
    some ((List.range ((last - first + step - 1) / step).toNat).map fun k =>
      (first + step * k).toNat)

/-- The children of a node that a key of a Python list selects. -/
def childrenAt (fuel : Nat) (tree : Tree) (node : NodeId) (key : PyKey) :
    Exec (Except PyErr (List NodeId)) := do
  let iter ← ChildIter.new tree node
  let children ← iter.collect fuel tree
  match key with
  | .slice start stop step =>
      match sliceIndices children.length start stop step with
      | none => return .error (.valueError "slice step cannot be zero")
      | some places => return .ok (places.filterMap fun i => children[i]?)
  | _ =>
      return .error (.typeError ("list indices must be integers or slices, not " ++ key.typeName))

/-- `__getitem__`: an `int` and a `str` give one child, a slice gives a list. -/
def getItem (fuel : Nat) (self : HandleRef) : PyKey → PyM PyItem
  | .int index =>
      if index < -(2 ^ 63) ∨ 2 ^ 63 ≤ index then .raise .overflowError
      else do
        let (child, version) ← withTree self
          (versioned fun tree node => childAt fuel tree node index)
        .sexp <$> share self child version
  | .str key => do
      let (child, version) ← withTree self
        (versioned fun tree node => childByKey fuel tree node key)
      .sexp <$> share self child version
  | key => do
      let (children, version) ← withTree self
        (versioned fun tree node => childrenAt fuel tree node key)
      .list <$> shareAll self children version

/-- `__iter__`: an iterator over all children. -/
def iter (self : HandleRef) : PyM IterRef := do
  let (first, version) ← withTree self
    (versioned fun tree node => do return .ok (← tree.firstChild node))
  shareIter self first version

/-- The first child of a node, which must have one. -/
def headOf (tree : Tree) (node : NodeId) : Exec (Except PyErr NodeId) := do
  match ← tree.firstChild node with
  | some id => return .ok id
  | none => return .error (.indexError "expression is empty")

/-- The first child. -/
def head (self : HandleRef) : PyM HandleRef := do
  let (child, version) ← withTree self (versioned headOf)
  share self child version

/-- The child after the first one. -/
def secondChild (tree : Tree) (node : NodeId) : Exec (Option NodeId) := do
  match ← tree.firstChild node with
  | some first => tree.nextSibling first
  | none => return none

/-- An iterator over all children after the first. -/
def tail (self : HandleRef) : PyM IterRef := do
  let (second, version) ← withTree self
    (versioned fun tree node => do return .ok (← secondChild tree node))
  shareIter self second version

/-- Whether this is an atom node. -/
def isAtom (self : HandleRef) : PyM Bool :=
  withTree self fun tree node => do return .ok (← tree.get node).isAtom

/-- The text of an atom node. -/
def value (self : HandleRef) : PyM String :=
  withTree self fun tree node => do
    match (← tree.get node).kind with
    | .atom atom => return .ok atom.asStr
    | .list => return .error (.typeError "list node has no value")

/-- Writes the text of an atom node and clears the cache. -/
def setValue (self : HandleRef) (value : String) : PyM Unit :=
  withTreeMut self fun tree node => do
    if !(← tree.get node).isAtom then
      return (.error (.typeError "cannot set value on a list node"), tree)
    else
      let nodes ← tree.nodes.modify node fun n => { n with kind := .atom (Atom.new value) }
      return (.ok (), { tree with nodes }.clearReprCache)

/-- The parent node, or `None`. -/
def parent (self : HandleRef) : PyM (Option HandleRef) := do
  let (parent, version) ← withTree self
    (versioned fun tree node => do return .ok (← tree.parent node))
  match parent with
  | none => return none
  | some id => some <$> share self id version

/-- Allocates a new unattached atom node in this tree. -/
def newAtom (self : HandleRef) (value : String) : PyM HandleRef := do
  let (id, version) ← withTreeMut self fun tree _ => do
    let (tree, id) ← tree.allocAtom (Atom.new value)
    return (.ok (id, tree.version), tree)
  share self id version

/-- Allocates a new unattached empty list node in this tree. -/
def newList (self : HandleRef) : PyM HandleRef := do
  let (id, version) ← withTreeMut self fun tree _ => do
    let (tree, id) ← tree.allocList
    return (.ok (id, tree.version), tree)
  share self id version

/-- Appends `child` as the last child of this node. -/
def append (fuel : Nat) (self child : HandleRef) : PyM Unit := do
  let h ← PyM.handle self
  let c ← PyM.handle child
  assertSameTree h.tree c.tree
  withTreeMut self fun tree node => do return (.ok (), ← Sexp.append fuel tree node c.node)

/-- Inserts `child` as the first child of this node. -/
def prepend (fuel : Nat) (self child : HandleRef) : PyM Unit := do
  let h ← PyM.handle self
  let c ← PyM.handle child
  assertSameTree h.tree c.tree
  withTreeMut self fun tree node => do return (.ok (), ← Sexp.prepend fuel tree node c.node)

/-- The handle of an optional argument, which must belong to the tree. -/
def afterHandle (t : Nat) : Option HandleRef → PyM (Option Handle)
  | none => return none
  | some after => do
      let a ← PyM.handle after
      assertSameTree t a.tree
      return some a

/-- Inserts `child` immediately after `after`, or first for `None`. -/
def insertAfter (fuel : Nat) (self : HandleRef) (after : Option HandleRef) (child : HandleRef) :
    PyM Unit := do
  let h ← PyM.handle self
  let c ← PyM.handle child
  assertSameTree h.tree c.tree
  let after ← afterHandle h.tree after
  withTreeMut self fun tree node => do
    if after.any (·.isStale tree) then return (.error staleError, tree)
    else return (.ok (), ← Sexp.insertAfter fuel tree node (after.map Handle.node) c.node)

/-- Removes this node and its entire subtree. -/
def remove (fuel : Nat) (self : HandleRef) : PyM Unit :=
  withTreeMut self fun tree node => do
    if node = tree.root then return (.error (.valueError "cannot remove the root node"), tree)
    else
      let tree ← Sexp.remove fuel tree node
      return (.ok (), tree.bumpVersion)

/-- Deep-copies this subtree into a new tree (`clone`). -/
def cloneNode (fuel : Nat) (self : HandleRef) : PyM HandleRef := do
  let newTree ← withTree self fun tree node => do return .ok (← cloneSubtree fuel tree node)
  .fromTree newTree

/-- Removes this subtree and returns it as a new tree. -/
def extract (fuel : Nat) (self : HandleRef) : PyM HandleRef := do
  let newTree ← withTreeMut self fun tree node => do
    if node = tree.root then return (.error (.valueError "cannot extract the root node"), tree)
    else
      let (tree, extracted) ← extractSubtree fuel tree node
      return (.ok extracted, tree.bumpVersion)
  .fromTree newTree

end SExp

/-- `__next__`: the next child, or nothing at the end; raises when the tree has changed. -/
def SExpIter.step (ref : IterRef) : PyM (Option HandleRef) := do
  let it ← PyM.iter ref
  match it.next with
  | none => return none
  | some current => do
      let tree ← PyM.treeAt it.tree
      if tree.version ≠ it.version then .raise staleError
      else
        let node ← PyM.lift (tree.get current)
        PyM.setIter ref { it with next := node.nextSibling }
        some <$> PyM.fromShared it.tree current it.version

end Sexp
