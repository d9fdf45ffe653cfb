import Sexp.Core.Tree

/-! # Walking the children of a node

`core/iter.rs`: the iterator over the direct children of a node, along the forward links, the
iterator over the nodes of a subtree, with an explicit stack, and the loops that the library builds
on them. The backward walk over the children that fills an explicit stack (so that the first child
is on top) occurs in several functions of the source; here it is `pushChildren`, applied by each of
them to the frame it pushes. -/

namespace Sexp

open Library (Pass)

/-- Iterator over the direct children of a node of a tree. -/
structure ChildIter where
  /-- The child to yield next. -/
  next : Option NodeId
  deriving DecidableEq

namespace ChildIter

/-- Creates an iterator over the direct children of `parent`. -/
def new (tree : Tree) (parent : NodeId) : Exec ChildIter := do
  return ⟨← tree.firstChild parent⟩

/-- The next child, and the iterator after it. -/
def step (tree : Tree) (iter : ChildIter) : Exec (Option (NodeId × ChildIter)) :=
  match iter.next with
  | none => return none
  | some current => do return some (current, ⟨← tree.nextSibling current⟩)

/-- One pass of `collect`. -/
def collectPass (tree : Tree) :
    ChildIter × List NodeId → Exec (Pass (ChildIter × List NodeId) (List NodeId))
  | (iter, seen) => do
      match ← iter.step tree with
      | none => return .leave seen.reverse
      | some (current, iter) => return .again (iter, current :: seen)

/-- All remaining children (`collect`). -/
def collect (fuel : Nat) (tree : Tree) (iter : ChildIter) : Exec (List NodeId) :=
  whileLoop fuel (iter, []) (collectPass tree)

/-- One pass of `find`. -/
def findPass (tree : Tree) (p : NodeId → Exec Bool) (iter : ChildIter) :
    Exec (Pass ChildIter (Option NodeId)) := do
  match ← iter.step tree with
  | none => return .leave none
  | some (current, iter) =>
      if ← p current then return .leave (some current) else return .again iter

/-- The first remaining child that satisfies the predicate (`find`). -/
def find (fuel : Nat) (tree : Tree) (iter : ChildIter) (p : NodeId → Exec Bool) :
    Exec (Option NodeId) :=
  whileLoop fuel iter (findPass tree p)

/-- One pass of `nth`. -/
def nthPass (tree : Tree) : ChildIter × Nat → Exec (Pass (ChildIter × Nat) (Option NodeId))
  | (iter, n) => do
      match ← iter.step tree with
      | none => return .leave none
      | some (current, iter) =>
          match n with
          | 0 => return .leave (some current)
          | n + 1 => return .again (iter, n)

/-- The remaining child at this position (`nth`). -/
def nth (fuel : Nat) (tree : Tree) (iter : ChildIter) (n : Nat) : Exec (Option NodeId) :=
  whileLoop fuel (iter, n) (nthPass tree)

end ChildIter

/-- The backward walk that pushes a frame for every child from `cursor` on, the first child last:
`while let Some(child) = cursor { let prev = prev_sibling(child); stack.push(..); cursor = prev }`.
-/
def pushChildren {α : Type} (fuel : Nat) (tree : Tree) (frame : NodeId → Option NodeId → α)
    (cursor : Option NodeId) (stack : List α) : Exec (List α) :=
  whileLoop fuel (cursor, stack) fun
    | (none, stack) => return .leave stack
    | (some child, stack) => do
        let prev ← tree.prevSibling child
        return .again (prev, frame child prev :: stack)

/-- Iterator over all nodes in a subtree of a tree in depth-first, pre-order. -/
structure DepthFirstIter where
  /-- The nodes whose subtrees are still to be visited, the next one first. -/
  stack : List NodeId
  deriving DecidableEq

namespace DepthFirstIter

/-- Creates an iterator over the subtree rooted at `start`, inclusive. -/
def new (start : NodeId) : DepthFirstIter := ⟨[start]⟩

/-- The next node, and the iterator after it: a node is popped and its children are pushed. -/
def step (fuel : Nat) (tree : Tree) (iter : DepthFirstIter) :
    Exec (Option (NodeId × DepthFirstIter)) :=
  match iter.stack with
  | [] => return none
  | current :: stack => do
      let cursor ← tree.lastChild current
      let stack ← pushChildren fuel tree (fun child _ => child) cursor stack
      return some (current, ⟨stack⟩)

/-- One pass of `collect`, which holds the iterator by its stack. -/
def collectPass (tree : Tree) (fuel : Nat) :
    List NodeId × List NodeId → Exec (Pass (List NodeId × List NodeId) (List NodeId))
  | (seen, stack) => do
      match ← step fuel tree ⟨stack⟩ with
      | none => return .leave seen.reverse
      | some (current, iter) => return .again (current :: seen, iter.stack)

/-- All remaining nodes (`collect`). -/
def collect (fuel : Nat) (tree : Tree) (iter : DepthFirstIter) : Exec (List NodeId) :=
  whileLoop fuel ([], iter.stack) (collectPass tree fuel)

end DepthFirstIter

end Sexp
