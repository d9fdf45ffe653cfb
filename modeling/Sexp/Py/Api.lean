import Sexp.Library.Transition
import Sexp.Py.SExp

/-! # The calls of the library

A Python program drives the library by calls; every call takes the objects that exist to the ones
that exist after it, and gives a value or raises. The calls are the labels of a transition system,
in which the runs start with no objects at all. -/

namespace Sexp

open Library (Event Run)

/-- **A call of the library.** -/
inductive Call where
  /-- `parse(source)`. -/
  | parse (source : PySource)
  /-- `SExp()`. -/
  | new
  /-- `repr(self)`. -/
  | repr (self : HandleRef)
  /-- `len(self)`. -/
  | len (self : HandleRef)
  /-- `self == other`. -/
  | eq (self : HandleRef) (other : PyArg)
  /-- `item in self`. -/
  | contains (self : HandleRef) (item : PyArg)
  /-- `self[key]`. -/
  | getItem (self : HandleRef) (key : PyKey)
  /-- `iter(self)`. -/
  | iter (self : HandleRef)
  /-- `next(iter)`. -/
  | next (iter : IterRef)
  /-- `self.head`. -/
  | head (self : HandleRef)
  /-- `self.tail`. -/
  | tail (self : HandleRef)
  /-- `self.is_atom`. -/
  | isAtom (self : HandleRef)
  /-- `self.value`. -/
  | value (self : HandleRef)
  /-- `self.value = value`. -/
  | setValue (self : HandleRef) (value : String)
  /-- `self.parent`. -/
  | parent (self : HandleRef)
  /-- `self.new_atom(value)`. -/
  | newAtom (self : HandleRef) (value : String)
  /-- `self.new_list()`. -/
  | newList (self : HandleRef)
  /-- `self.append(child)`. -/
  | append (self child : HandleRef)
  /-- `self.prepend(child)`. -/
  | prepend (self child : HandleRef)
  /-- `self.insert_after(after, child)`. -/
  | insertAfter (self : HandleRef) (after : Option HandleRef) (child : HandleRef)
  /-- `self.remove()`. -/
  | remove (self : HandleRef)
  /-- `self.clone()`. -/
  | clone (self : HandleRef)
  /-- `self.extract()`. -/
  | extract (self : HandleRef)

/-- **What a call returns.** -/
inductive Value where
  /-- `None`, also the end of an iteration. -/
  | none
  /-- A `bool`. -/
  | bool (value : Bool)
  /-- An `int`. -/
  | int (value : Nat)
  /-- A `str`. -/
  | str (value : String)
  /-- A handle. -/
  | sexp (ref : HandleRef)
  /-- A list of handles. -/
  | list (refs : List HandleRef)
  /-- An iterator. -/
  | iter (ref : IterRef)
  deriving DecidableEq, Repr

/-- The value of an optional handle. -/
def Value.ofHandle : Option HandleRef → Value
  | .none => .none
  | some ref => .sexp ref

/-- The value of an item. -/
def Value.ofItem : PyItem → Value
  | .sexp ref => .sexp ref
  | .list refs => .list refs

/-- **A call**, with fuel for its loops. -/
def call (fuel : Nat) : Call → PyM Value
  | .parse source => .sexp <$> pyParse fuel source
  | .new => .sexp <$> SExp.newEmpty
  | .repr self => .str <$> SExp.repr fuel self
  | .len self => .int <$> SExp.len self
  | .eq self other => .bool <$> SExp.eq fuel self other
  | .contains self item => .bool <$> SExp.contains fuel self item
  | .getItem self key => Value.ofItem <$> SExp.getItem fuel self key
  | .iter self => .iter <$> SExp.iter self
  | .next it => Value.ofHandle <$> SExpIter.step it
  | .head self => .sexp <$> SExp.head self
  | .tail self => .iter <$> SExp.tail self
  | .isAtom self => .bool <$> SExp.isAtom self
  | .value self => .str <$> SExp.value self
  | .setValue self value => (fun _ => .none) <$> SExp.setValue self value
  | .parent self => Value.ofHandle <$> SExp.parent self
  | .newAtom self value => .sexp <$> SExp.newAtom self value
  | .newList self => .sexp <$> SExp.newList self
  | .append self child => (fun _ => .none) <$> SExp.append fuel self child
  | .prepend self child => (fun _ => .none) <$> SExp.prepend fuel self child
  | .insertAfter self after child => (fun _ => .none) <$> SExp.insertAfter fuel self after child
  | .remove self => (fun _ => .none) <$> SExp.remove fuel self
  | .clone self => .sexp <$> SExp.cloneNode fuel self
  | .extract self => .sexp <$> SExp.extract fuel self

/-- The handles that an argument of `==` and `in` names. -/
def PyArg.handles : PyArg → List HandleRef
  | .sexp ref => [ref]
  | _ => []

/-- The handles that a call names. -/
def Call.handles : Call → List HandleRef
  | .parse _ | .new | .next _ => []
  | .eq self other => self :: other.handles
  | .contains self item => self :: item.handles
  | .append self child | .prepend self child => [self, child]
  | .insertAfter self after child => self :: child :: after.toList
  | .repr self | .len self | .getItem self _ | .iter self | .head self | .tail self | .isAtom self
  | .value self | .setValue self _ | .parent self | .newAtom self _ | .newList self | .remove self
  | .clone self | .extract self => [self]

/-- The iterators that a call names. -/
def Call.iters : Call → List IterRef
  | .next it => [it]
  | _ => []

/-- **A call names objects that exist**, as every call of a Python program does. -/
def Call.Exists (w : World) (c : Call) : Prop :=
  (∀ ref ∈ c.handles, ref < w.handles.length) ∧ ∀ ref ∈ c.iters, ref < w.iters.length

/-- **The label of a step**: a call and what it returns or raises. -/
structure CallResult where
  /-- The call. -/
  call : Call
  /-- What it returns or raises. -/
  result : Except PyErr Value

/-- **A step**: a call finishes. A call that panics aborts the process and one that does not
terminate has no step. -/
def ApiStep (w : World) (c : CallResult) (w' : World) : Prop :=
  ∃ fuel, call fuel c.call w = .ok (c.result, w')

/-- One event of a run of the library. -/
abbrev ApiEvent := Event World CallResult

/-- **A run of the library**: calls that finish, one after the other, beginning with no objects. -/
abbrev ApiRun : List ApiEvent → World → Prop := Run ApiStep World.empty

end Sexp
