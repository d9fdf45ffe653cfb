import Sexp.Core.Iter

/-! # Mutations

`core/mutation.rs`: linking a node under another, moving it there when it is attached elsewhere,
and removing a subtree. Every operation panics when an id it touches is stale; the three
operations that attach a node first `assert!` that no cycle would be created. -/

namespace Sexp

open Library (Pass)

/-- Whether the guard finds that linking `child` under `parent` would create a cycle. The fast
path answers for a parentless child without looking at the ancestors of `parent`. -/
def wouldCreateCycle (fuel : Nat) (tree : Tree) (parent child : NodeId) : Exec Bool := do
  if (← tree.nodes.index child).parent.isNone then
    return parent == child
  else
    whileLoop fuel (some parent) fun
      | none => return .leave false
      | some id => do
          if id = child then return .leave true
          else return .again (← tree.nodes.index id).parent

/-- The forward link into a gap in a child list: `next_sibling` of the node before the gap if there
is one, else `first_child` of the parent if there is one. -/
def linkForward (nodes : Slab Node) (previous parent x : Option NodeId) : Exec (Slab Node) :=
  match previous, parent with
  | some prevNode, _ => nodes.modify prevNode fun n => { n with nextSibling := x }
  | none, some parentNode => nodes.modify parentNode fun n => { n with firstChild := x }
  | none, none => return nodes

/-- The backward link into a gap in a child list: `previous_sibling` of the node after the gap if
there is one, else `last_child` of the parent if there is one. -/
def linkBackward (nodes : Slab Node) (next parent x : Option NodeId) : Exec (Slab Node) :=
  match next, parent with
  | some nextNode, _ => nodes.modify nextNode fun n => { n with previousSibling := x }
  | none, some parentNode => nodes.modify parentNode fun n => { n with lastChild := x }
  | none, none => return nodes

/-- `child_count -= 1` at the parent, if there is one; a `u32` that wraps around. -/
def countDown (nodes : Slab Node) (parent : Option NodeId) : Exec (Slab Node) :=
  match parent with
  | some parentNode => nodes.modify parentNode fun n => { n with childCount := n.childCount - 1 }
  | none => return nodes

/-- Detaches `node` from its parent and siblings without removing it from the slab. -/
def unlink (tree : Tree) (node : NodeId) : Exec Tree := do
  let old ← tree.nodes.index node
  let nodes ← linkForward tree.nodes old.previousSibling old.parent old.nextSibling
  let nodes ← linkBackward nodes old.nextSibling old.parent old.previousSibling
  let nodes ← countDown nodes old.parent
  let nodes ← nodes.modify node fun n =>
    { n with parent := none, previousSibling := none, nextSibling := none }
  return { tree with nodes }

/-- Detaches `child` if it is attached: the first step of the three attaching operations. -/
def unlinkIfAttached (tree : Tree) (child : NodeId) : Exec Tree := do
  if (← tree.nodes.index child).parent.isSome then unlink tree child else return tree

/-- Appends `child` as the last child of `parent`, moving it there if it is attached elsewhere. -/
def append (fuel : Nat) (tree : Tree) (parent child : NodeId) : Exec Tree := do
  assertThat (!(← wouldCreateCycle fuel tree parent child)) .appendCycle
  let tree ← unlinkIfAttached tree child
  let previousLast := (← tree.nodes.index parent).lastChild
  let nodes ← tree.nodes.modify child fun n =>
    { n with parent := some parent, previousSibling := previousLast, nextSibling := none }
  let nodes ← linkForward nodes previousLast (some parent) (some child)
  let nodes ← nodes.modify parent fun n => { n with lastChild := some child }
  let nodes ← nodes.modify parent fun n => { n with childCount := n.childCount + 1 }
  return { tree with nodes }.bumpVersion

/-- Inserts `child` as the first child of `parent`, moving it there if it is attached elsewhere. -/
def prepend (fuel : Nat) (tree : Tree) (parent child : NodeId) : Exec Tree := do
  assertThat (!(← wouldCreateCycle fuel tree parent child)) .prependCycle
  let tree ← unlinkIfAttached tree child
  let previousFirst := (← tree.nodes.index parent).firstChild
  let nodes ← tree.nodes.modify child fun n =>
    { n with parent := some parent, previousSibling := none, nextSibling := previousFirst }
  let nodes ← linkBackward nodes previousFirst (some parent) (some child)
  let nodes ← nodes.modify parent fun n => { n with firstChild := some child }
  let nodes ← nodes.modify parent fun n => { n with childCount := n.childCount + 1 }
  return { tree with nodes }.bumpVersion

/-- Inserts `child` immediately after `after`, or first when `after` is `none`. The links next to
the insertion point are read from `after`; the child list that grows is the one of `parent`. -/
def insertAfter (fuel : Nat) (tree : Tree) (parent : NodeId) (after : Option NodeId)
    (child : NodeId) : Exec Tree := do
  assertThat (!(← wouldCreateCycle fuel tree parent child)) .insertAfterCycle
  let tree ← unlinkIfAttached tree child
  match after with
  | none => prepend fuel tree parent child
  | some sibling =>
      let next := (← tree.nodes.index sibling).nextSibling
      let nodes ← tree.nodes.modify child fun n =>
        { n with parent := some parent, previousSibling := some sibling, nextSibling := next }
      let nodes ← nodes.modify sibling fun n => { n with nextSibling := some child }
      let nodes ← linkBackward nodes next (some parent) (some child)
      let nodes ← nodes.modify parent fun n => { n with childCount := n.childCount + 1 }
      return { tree with nodes }.bumpVersion

/-- One pass of the loop of `dropSubtree`: pops a node, pushes its children and frees its slot. -/
def dropPass (fuel : Nat) : Tree × List NodeId → Exec (Pass (Tree × List NodeId) Tree)
  | (tree, []) => return .leave tree
  | (tree, current :: stack) => do
      let cursor ← tree.lastChild current
      let stack ← pushChildren fuel tree (fun child _ => child) cursor stack
      return .again ({ tree with nodes := (tree.nodes.remove current).1 }, stack)

/-- Removes `node` and all its descendants from the slab using an explicit stack. -/
def dropSubtree (fuel : Nat) (tree : Tree) (node : NodeId) : Exec Tree :=
  whileLoop fuel (tree, [node]) (dropPass fuel)

/-- Removes `node` and its entire subtree from the tree. -/
def remove (fuel : Nat) (tree : Tree) (node : NodeId) : Exec Tree := do
  let tree ← unlink tree node
  dropSubtree fuel tree node

end Sexp
