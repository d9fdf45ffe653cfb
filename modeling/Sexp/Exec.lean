import Sexp.Library.Loop

/-! # Outcomes of the code

The library is a release build: a panic aborts the process, and fixed-width arithmetic wraps
around. A function of the code that may panic, or that runs a loop, is a function into `Exec`:
it answers a value, stops at one of its panic sites, or runs out of the fuel its loops are given.
Running out of fuel is not a behaviour of the code; a call that terminates answers for all
sufficiently large fuels. Nor is a call on a Python object that does not exist. -/

namespace Sexp

/-- The panic sites of the library. -/
inductive Panic where
  /-- `slots[idx]` with an index past the end of the slot vector. -/
  | indexOutOfBounds
  /-- `expect("stale key")` of the slab. -/
  | staleKey
  /-- `assert!`: "append would create a cycle: child is an ancestor of parent". -/
  | appendCycle
  /-- `assert!`: "prepend would create a cycle: child is an ancestor of parent". -/
  | prependCycle
  /-- `assert!`: "insert_after would create a cycle: child is an ancestor of parent". -/
  | insertAfterCycle
  /-- `expect("child_count was consistent")` of integer indexing. -/
  | childCountInconsistent
  /-- A `str` sliced off a character boundary. -/
  | notCharBoundary
  deriving DecidableEq, Repr

/-- Why a computation gives no value. -/
inductive Fault where
  /-- The code panics; the process is aborted. -/
  | panic (site : Panic)
  /-- A loop was given too little fuel. -/
  | outOfFuel
  /-- A call names an object that has not been created. -/
  | noObject
  deriving DecidableEq, Repr

/-- A computation of the code: a value, a panic, or too little fuel. -/
abbrev Exec (α : Type) := Except Fault α

/-- A `while` loop of the code, given `fuel` passes. -/
abbrev whileLoop {σ β : Type} (fuel : Nat) (s : σ)
    (body : σ → Exec (Library.Pass σ β)) : Exec β :=
  Library.iterate .outOfFuel body fuel s

/-- `assert!`: panics at this site unless the condition holds. -/
def assertThat (condition : Bool) (site : Panic) : Exec Unit :=
  if condition then .ok () else .error (.panic site)

/-- An assertion passes exactly when its condition holds. -/
theorem assertThat_eq_ok {condition : Bool} {site : Panic} {u : Unit} :
    assertThat condition site = .ok u ↔ condition = true := by
  cases condition <;> simp [assertThat]

end Sexp
