import Sexp.Core.Iter

/-! # The serializer

`serialize/serializer.rs`: writes the text of a subtree with an explicit stack. Atoms are written
as they are, lists as `(child1 child2 ...)` with a single space between siblings. The output buffer
is the loop's accumulator; its initial capacity is a performance hint and is left out. -/

namespace Sexp

open Library (Pass)

/-- Frame on the explicit serialization stack. -/
inductive Frame where
  /-- Emit the node, preceded by a space if `needsSpace` is true. -/
  | node (id : NodeId) (needsSpace : Bool)
  /-- Emit a closing `)`. -/
  | close
  deriving DecidableEq

/-- One pass of the loop of `writeNode`: pops a frame and writes what it stands for. -/
def writePass (tree : Tree) (fuel : Nat) :
    String × List Frame → Exec (Pass (String × List Frame) String)
  | (output, []) => return .leave output
  | (output, .close :: stack) => return .again (output.push ')', stack)
  | (output, .node id needsSpace :: stack) => do
      match (← tree.get id).kind with
      | .atom value =>
          let output := if needsSpace then output.push ' ' else output
          return .again (output ++ value.asStr, stack)
      | .list =>
          let output := if needsSpace then output.push ' ' else output
          let output := output.push '('
          let cursor ← tree.lastChild id
          let stack ← pushChildren fuel tree (fun child prev => Frame.node child prev.isSome) cursor
            (.close :: stack)
          return .again (output, stack)

/-- Writes `node` and its entire subtree into `output` using an explicit stack. -/
def writeNode (fuel : Nat) (tree : Tree) (node : NodeId) (output : String) (needsSpace : Bool) :
    Exec String :=
  whileLoop fuel (output, [.node node needsSpace]) (writePass tree fuel)

/-- Serializes the subtree rooted at `node`. -/
def serializeNode (fuel : Nat) (tree : Tree) (node : NodeId) : Exec String :=
  writeNode fuel tree node "" false

/-- Serializes the entire tree from its root. -/
def serialize (fuel : Nat) (tree : Tree) : Exec String := serializeNode fuel tree tree.root

end Sexp
