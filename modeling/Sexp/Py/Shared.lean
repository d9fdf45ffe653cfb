import Sexp.Parse.Parser
import Sexp.Py.World

/-! # Shared helpers of the methods

`py/shared.rs`: the errors that several methods raise, the check that two handles share their tree,
and structural equality of subtrees. -/

namespace Sexp

open Library (Pass)

/-- The exception for a stale handle or iterator. -/
def staleError : PyErr := .runtimeError "stale node reference"

/-- The exception for a parse error. -/
def rustParseError (error : ParseError) : PyErr := .parseError error.display

/-- Checks that `tree` and `other` are the same tree. -/
def assertSameTree (tree other : Nat) : PyM Unit :=
  if tree ≠ other then .raise (.valueError "node belongs to a different tree") else return ()

/-! ## Structural equality -/

/-- One pass of the walk over the children of two nodes. -/
def pairPass (leftTree rightTree : Tree) :
    Option NodeId × Option NodeId × List (NodeId × NodeId) →
      Exec (Pass (Option NodeId × Option NodeId × List (NodeId × NodeId)) (List (NodeId × NodeId)))
  | (some left, some right, stack) => do
      let lc ← leftTree.nextSibling left
      let rc ← rightTree.nextSibling right
      return .again (lc, rc, (left, right) :: stack)
  | (_, _, stack) => return .leave stack

/-- The walk over the children of two nodes that pushes the pairs of children at the same
place. -/
def pushPairs (fuel : Nat) (leftTree rightTree : Tree) (lc rc : Option NodeId)
    (stack : List (NodeId × NodeId)) : Exec (List (NodeId × NodeId)) :=
  whileLoop fuel (lc, rc, stack) (pairPass leftTree rightTree)

/-- One pass of the loop of `subtreesEqual`: pops a pair of nodes and compares them. -/
def equalPass (leftTree rightTree : Tree) (fuel : Nat) :
    List (NodeId × NodeId) → Exec (Pass (List (NodeId × NodeId)) Bool)
  | [] => return .leave true
  | (left, right) :: stack => do
      let l ← leftTree.get left
      let r ← rightTree.get right
      match l.kind, r.kind with
      | .atom la, .atom ra =>
          if la.asStr ≠ ra.asStr then return .leave false else return .again stack
      | .list, .list =>
          if l.childCount ≠ r.childCount then return .leave false
          else return .again (← pushPairs fuel leftTree rightTree l.firstChild r.firstChild stack)
      | _, _ => return .leave false

/-- Structural deep equality between two subtrees, possibly in different trees. -/
def subtreesEqual (fuel : Nat) (leftTree : Tree) (leftNode : NodeId) (rightTree : Tree)
    (rightNode : NodeId) : Exec Bool :=
  whileLoop fuel [(leftNode, rightNode)] (equalPass leftTree rightTree fuel)

end Sexp
