import Sexp.Core.Mutation

/-! # Cloning

`core/clone.rs`: deep copies of subtrees into a new tree, and extraction, which copies a subtree
and then removes it. The capacity of the new tree is a performance hint and is left out. -/

namespace Sexp

open Library (Pass)

/-- Allocates a node with this content in `destination`. -/
def allocCopy (destination : Tree) : NodeType → Exec (Tree × NodeId)
  | .atom atom => destination.allocAtom atom
  | .list => destination.allocList

/-- One pass of the loop of `cloneInto`: pops a node, copies it and pushes its children. -/
def clonePass (source : Tree) (fuel : Nat) :
    Tree × List (NodeId × NodeId) → Exec (Pass (Tree × List (NodeId × NodeId)) Tree)
  | (destination, []) => return .leave destination
  | (destination, (src, dstParent) :: stack) => do
      let (destination, newNode) ← allocCopy destination (← source.get src).kind
      let destination ← append fuel destination dstParent newNode
      let cursor ← source.lastChild src
      let stack ← pushChildren fuel source (fun child _ => (child, newNode)) cursor stack
      return .again (destination, stack)

/-- Clones `sourceNode` from `source` into `destination` as a child of `destinationParent`, with an
explicit stack. -/
def cloneInto (fuel : Nat) (source : Tree) (sourceNode : NodeId) (destination : Tree)
    (destinationParent : NodeId) : Exec Tree :=
  whileLoop fuel (destination, [(sourceNode, destinationParent)]) (clonePass source fuel)

/-- One pass of the loop of `cloneSubtree`: clones a child and goes on to its next sibling. -/
def cloneChildPass (source : Tree) (destinationRoot : NodeId) (fuel : Nat) :
    Tree × Option NodeId → Exec (Pass (Tree × Option NodeId) Tree)
  | (destination, none) => return .leave destination
  | (destination, some childId) => do
      let next ← source.nextSibling childId
      let destination ← cloneInto fuel source childId destination destinationRoot
      return .again (destination, next)

/-- Deep-copies the subtree rooted at `node` into a new independent tree. The root is copied by
copying its whole tree. -/
def cloneSubtree (fuel : Nat) (source : Tree) (node : NodeId) : Exec Tree := do
  if node = source.root then return source
  else
    match (← source.get node).kind with
    | .atom atom => do
        let (nodes, root) ← Slab.new.insert (Node.newAtom atom)
        return Tree.fromRaw nodes root
    | .list => do
        let destination ← Tree.new
        let cursor ← source.firstChild node
        whileLoop fuel (destination, cursor) (cloneChildPass source destination.root fuel)

/-- Removes the subtree rooted at `node` from `tree` and returns it as a new tree, behind the tree
that is left. The root is cloned and stays. -/
def extractSubtree (fuel : Nat) (tree : Tree) (node : NodeId) : Exec (Tree × Tree) := do
  let extracted ← cloneSubtree fuel tree node
  if node = tree.root then return (tree, extracted)
  else return (← remove fuel tree node, extracted)

end Sexp
