import Sexp.Core.Tree
import Sexp.Parse.Tokenizer

/-! # The parser

`parse/parser.rs` and `parse/error.rs`: builds the node slab of a tree while reading tokens, with a
stack of open lists. Capacities are performance hints and are left out. The two branches of the
source that insert a node and link it under the innermost open list, or record it as a top-level
form, are `Building.add`. -/

namespace Sexp

open Library (Pass)

/-- Describes why a parse attempt failed. -/
inductive ParseError where
  /-- An opening parenthesis with no matching closing parenthesis. -/
  | unclosedParenthesis
  /-- A closing parenthesis with no preceding opening parenthesis. -/
  | strayClosingParenthesis
  /-- More than one top-level form. -/
  | multipleTopLevelForms
  /-- The byte input is not valid UTF-8. -/
  | invalidUtf8
  deriving DecidableEq, Repr

/-- The message of a parse error (`Display`). -/
def ParseError.display : ParseError → String
  | .unclosedParenthesis => "unclosed parenthesis"
  | .strayClosingParenthesis => "stray closing parenthesis"
  | .multipleTopLevelForms => "multiple top-level forms"
  | .invalidUtf8 => "input is not valid UTF-8"

/-- The links between `child` and the last child of `parent` so far, or the first link of `parent`
when it has no child. -/
def linkBehind (nodes : Slab Node) (parent child : NodeId) :
    Option NodeId → Exec (Slab Node)
  | some previousLast => do
      let nodes ← nodes.modify previousLast fun n => { n with nextSibling := some child }
      nodes.modify child fun n => { n with previousSibling := some previousLast }
  | none => nodes.modify parent fun n => { n with firstChild := some child }

/-- Links `child` as the last child of `parent` in the node slab. -/
def linkChild (nodes : Slab Node) (parent child : NodeId) : Exec (Slab Node) := do
  let nodes ← nodes.modify child fun n => { n with parent := some parent }
  let nodes ← linkBehind nodes parent child (← nodes.index parent).lastChild
  let nodes ← nodes.modify parent fun n => { n with lastChild := some child }
  nodes.modify parent fun n => { n with childCount := n.childCount + 1 }

/-- The state of the parser between two tokens. -/
structure Building where
  /-- The nodes built so far. -/
  nodes : Slab Node
  /-- The lists that are not closed yet, the innermost first. -/
  openLists : List NodeId
  /-- The top-level forms. -/
  topLevel : List NodeId

namespace Building

/-- The state before the first token. -/
def new : Building := ⟨Slab.new, [], []⟩

/-- Inserts a node, and links it under the innermost open list or records it as a top-level form. -/
def add (building : Building) (node : Node) : Exec (Building × NodeId) := do
  let (nodes, id) ← building.nodes.insert node
  match building.openLists with
  | parent :: _ => return ({ building with nodes := ← linkChild nodes parent id }, id)
  | [] => return ({ building with nodes, topLevel := building.topLevel ++ [id] }, id)

/-- What the parser does on one token. -/
def token (building : Building) : Token → Exec (Except ParseError Building)
  | .leftParen => do
      let (building, listNode) ← building.add Node.newList
      return .ok { building with openLists := listNode :: building.openLists }
  | .rightParen =>
      match building.openLists with
      | [] => return .error .strayClosingParenthesis
      | _ :: openLists => return .ok { building with openLists }
  | .atom value => do
      let (building, _) ← building.add (Node.newAtom (Atom.new value))
      return .ok building

/-- What the parser does behind the last token. -/
def finish (building : Building) : Exec (Except ParseError Tree) :=
  if building.openLists.isEmpty then
    match building.topLevel with
    | [] => do return .ok (← Tree.newBare)
    | [root] => return .ok (Tree.fromRaw building.nodes root)
    | _ => return .error .multipleTopLevelForms
  else return .error .unclosedParenthesis

end Building

/-- One pass of the loop of `parse`: reads a token. -/
def parsePass : Tokenizer × Building →
    Exec (Pass (Tokenizer × Building) (Except ParseError Building))
  | (tokenizer, building) => do
      match ← tokenizer.next with
      | (none, _) => return .leave (.ok building)
      | (some token, tokenizer) =>
          match ← building.token token with
          | .error error => return .leave (.error error)
          | .ok building => return .again (tokenizer, building)

/-- Parses `input` into a tree. -/
def parse (fuel : Nat) (input : String) : Exec (Except ParseError Tree) := do
  match ← whileLoop fuel (⟨input⟩, Building.new) parsePass with
  | .error error => return .error error
  | .ok building => building.finish

/-- Parses `input` bytes as UTF-8. -/
def parseBytes (fuel : Nat) (input : ByteArray) : Exec (Except ParseError Tree) :=
  match String.fromUTF8? input with
  | none => return .error .invalidUtf8
  | some source => parse fuel source

end Sexp
