import Sexp.Core.Clone

/-! # The Python objects

`py/sexp.rs`, `py/iter.rs` and `py/shared.rs`: the trees behind the handles (`SharedTree`), the
handles (`SExp`) and the iterators (`SExpIter`) that have been created so far, in the order of their
creation. An object is named by its place in that order; trees are never the same because they are
equal (`Arc::ptr_eq`). Objects that Python has dropped stay listed and are not named any more.

A method is a computation in `PyM`: it reads and writes the objects, and returns a value or raises
an exception. -/

namespace Sexp

/-- A Python exception that the library raises. -/
inductive PyErr where
  /-- `RuntimeError`. -/
  | runtimeError (message : String)
  /-- `ValueError`. -/
  | valueError (message : String)
  /-- `TypeError`. -/
  | typeError (message : String)
  /-- `IndexError`. -/
  | indexError (message : String)
  /-- `KeyError`. -/
  | keyError (message : String)
  /-- `OverflowError`, raised by the conversion of an integer argument. -/
  | overflowError
  /-- `ParseError`. -/
  | parseError (message : String)
  deriving DecidableEq, Repr

/-- A handle: a node of a tree, with the version of the tree when the handle was created or last
refreshed (`SExp`). -/
structure Handle where
  /-- The tree. -/
  tree : Nat
  /-- The node. -/
  node : NodeId
  /-- The version snapshot. -/
  version : UInt64
  deriving DecidableEq, Repr

/-- Whether a handle must not be used. The root is always considered valid. -/
def Handle.isStale (handle : Handle) (tree : Tree) : Bool :=
  handle.node ≠ tree.root ∧ handle.version ≠ tree.version

/-- A lazy iterator over the children of a node (`SExpIter`). -/
structure SExpIter where
  /-- The tree. -/
  tree : Nat
  /-- The child to yield next. -/
  next : Option NodeId
  /-- The version of the tree when the iterator was created. -/
  version : UInt64
  deriving DecidableEq, Repr

/-- **The objects that have been created**, in the order of their creation. -/
structure World where
  /-- The trees. -/
  trees : List Tree
  /-- The handles. -/
  handles : List Handle
  /-- The iterators. -/
  iters : List SExpIter
  deriving DecidableEq

/-- The world before the first call. -/
def World.empty : World := ⟨[], [], []⟩

/-- The name of a handle: its place in the order of creation. -/
abbrev HandleRef := Nat

/-- The name of an iterator: its place in the order of creation. -/
abbrev IterRef := Nat

/-! ## Methods -/

/-- **A method**: from a world to a value or an exception, and the world after the call. -/
def PyM (α : Type) : Type := World → Exec (Except PyErr α × World)

namespace PyM

variable {α β : Type}

/-- Sequencing: an exception ends the method, and keeps what has been written. -/
def bind (x : PyM α) (f : α → PyM β) : PyM β := fun w => do
  match ← x w with
  | (.error e, w) => return (.error e, w)
  | (.ok a, w) => f a w

instance : Monad PyM where
  pure a := fun w => .ok (.ok a, w)
  bind := bind

/-- Raises an exception. -/
def raise (e : PyErr) : PyM α := fun w => .ok (.error e, w)

/-- Runs code that neither raises nor touches the objects. -/
def lift (x : Exec α) : PyM α := fun w => do return (.ok (← x), w)

/-- Raises the exception of a result, if it is one (`?`). -/
def ofExcept (r : Except PyErr α) : PyM α := fun w => .ok (r, w)

/-- The handle with this name. -/
def handle (ref : HandleRef) : PyM Handle := fun w =>
  match w.handles[ref]? with
  | some h => .ok (.ok h, w)
  | none => .error .noObject

/-- The iterator with this name. -/
def iter (ref : IterRef) : PyM SExpIter := fun w =>
  match w.iters[ref]? with
  | some it => .ok (.ok it, w)
  | none => .error .noObject

/-- The tree behind a handle or an iterator (`get`). -/
def treeAt (t : Nat) : PyM Tree := fun w =>
  match w.trees[t]? with
  | some tree => .ok (.ok tree, w)
  | none => .error .noObject

/-- Writes a tree. -/
def setTree (t : Nat) (tree : Tree) : PyM Unit := fun w =>
  .ok (.ok (), { w with trees := w.trees.set t tree })

/-- Writes a handle. -/
def setHandle (ref : HandleRef) (h : Handle) : PyM Unit := fun w =>
  .ok (.ok (), { w with handles := w.handles.set ref h })

/-- Writes an iterator. -/
def setIter (ref : IterRef) (it : SExpIter) : PyM Unit := fun w =>
  .ok (.ok (), { w with iters := w.iters.set ref it })

/-- Creates a handle (`from_shared`). -/
def fromShared (t : Nat) (node : NodeId) (version : UInt64) : PyM HandleRef := fun w =>
  .ok (.ok w.handles.length, { w with handles := w.handles ++ [⟨t, node, version⟩] })

/-- Creates handles, one for each node. -/
def fromSharedAll (t : Nat) (nodes : List NodeId) (version : UInt64) : PyM (List HandleRef) :=
  fun w => .ok (.ok ((List.range nodes.length).map (w.handles.length + ·)),
    { w with handles := w.handles ++ nodes.map fun node => ⟨t, node, version⟩ })

/-- Creates a tree and a handle to its root (`from_tree`). -/
def fromTree (tree : Tree) : PyM HandleRef := fun w =>
  .ok (.ok w.handles.length,
    { w with
      trees := w.trees ++ [tree]
      handles := w.handles ++ [⟨w.trees.length, tree.root, tree.version⟩] })

/-- Creates an iterator (`SExpIter::new`). -/
def newIter (t : Nat) (next : Option NodeId) (version : UInt64) : PyM IterRef := fun w =>
  .ok (.ok w.iters.length, { w with iters := w.iters ++ [⟨t, next, version⟩] })

/-! ## Reasoning about methods -/

variable {x : PyM α} {f : α → PyM β} {w w' : World} {r : Except PyErr β} {e : PyErr} {b : β}

/-- A sequence whose first part returns a value goes on with the rest. -/
theorem bind_of_ok {a : α} {w₁ : World} (h : x w = .ok (.ok a, w₁)) : (x >>= f) w = f a w₁ := by
  change PyM.bind x f w = _
  unfold PyM.bind
  rw [h]
  rfl

/-- A sequence whose first part raises is over. -/
theorem bind_of_error {w₁ : World} (h : x w = .ok (.error e, w₁)) :
    (x >>= f) w = .ok (.error e, w₁) := by
  change PyM.bind x f w = _
  unfold PyM.bind
  rw [h]
  rfl

/-- A sequence whose first part gives no result gives none. -/
theorem bind_of_fault {fault : Fault} (h : x w = .error fault) :
    (x >>= f) w = .error fault := by
  change PyM.bind x f w = _
  unfold PyM.bind
  rw [h]
  rfl

/-- **A sequence returns** iff its first part does and the rest returns on its value. -/
theorem bind_eq_ok : (x >>= f) w = .ok (.ok b, w') ↔
    ∃ a w₁, x w = .ok (.ok a, w₁) ∧ f a w₁ = .ok (.ok b, w') := by
  rcases h : x w with fault | ⟨e | a, w₁⟩
  · simp [bind_of_fault h]
  · simp [bind_of_error h]
  · simp [bind_of_ok h]

/-- **A sequence raises** iff its first part does, or returns a value on which the rest raises. -/
theorem bind_eq_error : (x >>= f) w = .ok (.error e, w') ↔
    x w = .ok (.error e, w') ∨ ∃ a w₁, x w = .ok (.ok a, w₁) ∧ f a w₁ = .ok (.error e, w') := by
  rcases h : x w with fault | ⟨e | a, w₁⟩
  · simp [bind_of_fault h]
  · simp [bind_of_error h]
  · simp [bind_of_ok h]

/-- Mapping over a method returns the image of its value. -/
theorem map_eq_ok {g : α → β} : (g <$> x) w = .ok (.ok b, w') ↔
    ∃ a, x w = .ok (.ok a, w') ∧ g a = b := by
  change (x >>= fun a => pure (g a)) w = _ ↔ _
  rw [bind_eq_ok]
  constructor
  · rintro ⟨a, w₁, hx, hpure⟩
    cases hpure
    exact ⟨a, hx, rfl⟩
  · rintro ⟨a, hx, rfl⟩
    exact ⟨a, w', hx, rfl⟩

/-- Mapping over a method raises what it raises. -/
theorem map_eq_error {g : α → β} : (g <$> x) w = .ok (.error e, w') ↔
    x w = .ok (.error e, w') := by
  change (x >>= fun a => pure (g a)) w = _ ↔ _
  rw [bind_eq_error]
  constructor
  · rintro (hx | ⟨a, w₁, -, hpure⟩)
    · exact hx
    · cases hpure
  · exact .inl

/-- Mapping over the answer of a method. -/
theorem map_answers {m : ℕ → PyM α} {r : Except PyErr α}
    (hm : Library.Answers (fun fuel => m fuel w) (r, w')) (g : α → β) :
    Library.Answers (fun fuel => (g <$> m fuel) w) (r.map g, w') := by
  obtain ⟨bound, hbound⟩ := hm
  refine ⟨bound, fun fuel hle => ?_⟩
  cases r with
  | error e => exact map_eq_error.mpr (hbound fuel hle)
  | ok a => exact map_eq_ok.mpr ⟨a, hbound fuel hle, rfl⟩

/-- Lifted code returns its value. -/
theorem lift_eq_ok {x : Exec α} {r : Except PyErr α} :
    lift x w = .ok (r, w') ↔ ∃ a, x = .ok a ∧ r = .ok a ∧ w' = w := by
  unfold lift
  rcases x with fault | a
  · simp
  · simp [eq_comm]

/-- Looking up a handle. -/
theorem handle_eq_ok {ref : HandleRef} {r : Except PyErr Handle} :
    handle ref w = .ok (r, w') ↔ ∃ h, w.handles[ref]? = some h ∧ r = .ok h ∧ w' = w := by
  unfold handle
  rcases w.handles[ref]? with _ | h
  · simp
  · simp [eq_comm]

/-- Looking up a handle that exists. -/
theorem handle_apply {ref : HandleRef} {h : Handle} (hh : w.handles[ref]? = some h) :
    handle ref w = .ok (.ok h, w) :=
  handle_eq_ok.mpr ⟨h, hh, rfl, rfl⟩

/-- Code that first looks up a handle that does not exist gives no result. -/
theorem handle_bind_of_none {ref : HandleRef} (hnone : w.handles[ref]? = none)
    (f : Handle → PyM α) :
    (handle ref >>= f) w = .error .noObject :=
  bind_of_fault (by rw [handle, hnone])

/-- Code that first looks up a handle, and gives a result, has found it. -/
theorem exists_of_handle_bind {ref : HandleRef} {f : Handle → PyM α} {x : Except PyErr α × World}
    (hx : (handle ref >>= f) w = .ok x) :
    ∃ k, w.handles[ref]? = some k ∧ f k w = .ok x := by
  rcases hk : w.handles[ref]? with _ | k
  · rw [handle_bind_of_none hk] at hx
    cases hx
  · exact ⟨k, rfl, by rwa [bind_of_ok (handle_apply hk)] at hx⟩

/-- Mapping over a method gives a result only when the method does. -/
theorem exists_of_map {m : PyM α} {g : α → β} {x : Except PyErr β × World}
    (hx : (g <$> m) w = .ok x) : ∃ y, m w = .ok y := by
  rcases hm : m w with fault | y
  · have hfault : (g <$> m) w = .error fault := bind_of_fault hm
    rw [hfault] at hx
    cases hx
  · exact ⟨y, rfl⟩

/-- Looking up an iterator. -/
theorem iter_eq_ok {ref : IterRef} {r : Except PyErr SExpIter} :
    iter ref w = .ok (r, w') ↔ ∃ it, w.iters[ref]? = some it ∧ r = .ok it ∧ w' = w := by
  unfold iter
  rcases w.iters[ref]? with _ | it
  · simp
  · simp [eq_comm]

/-- Looking up an iterator that exists. -/
theorem iter_apply {ref : IterRef} {it : SExpIter} (hit : w.iters[ref]? = some it) :
    iter ref w = .ok (.ok it, w) :=
  iter_eq_ok.mpr ⟨it, hit, rfl, rfl⟩

/-- Looking up a tree. -/
theorem treeAt_eq_ok {t : Nat} {r : Except PyErr Tree} :
    treeAt t w = .ok (r, w') ↔ ∃ tree, w.trees[t]? = some tree ∧ r = .ok tree ∧ w' = w := by
  unfold treeAt
  rcases w.trees[t]? with _ | tree
  · simp
  · simp [eq_comm]

/-- Looking up a tree that exists. -/
theorem treeAt_apply {t : Nat} {tree : Tree} (ht : w.trees[t]? = some tree) :
    treeAt t w = .ok (.ok tree, w) :=
  treeAt_eq_ok.mpr ⟨tree, ht, rfl, rfl⟩

/-! ## Methods that leave the objects alone -/

/-- **A method that only reads** leaves the objects as they are. -/
def ReadOnly (x : PyM α) : Prop := ∀ w r w', x w = .ok (r, w') → w' = w

/-- **A method is failure-atomic** when raising leaves the objects as they are. -/
def Atomic (x : PyM α) : Prop := ∀ w e w', x w = .ok (.error e, w') → w' = w

/-- A method that never raises. -/
def Quiet (x : PyM α) : Prop := ∀ w e w', x w ≠ .ok (.error e, w')

theorem readOnly_pure (a : α) : ReadOnly (pure a : PyM α) := by
  intro w r w' h
  cases h
  rfl

theorem readOnly_raise (e : PyErr) : ReadOnly (raise e : PyM α) := by
  intro w r w' h
  cases h
  rfl

theorem readOnly_ofExcept (r : Except PyErr α) : ReadOnly (ofExcept r) := by
  intro w r w' h
  cases h
  rfl

theorem readOnly_lift (x : Exec α) : ReadOnly (lift x) := by
  intro w r w' h
  obtain ⟨a, -, -, hw⟩ := lift_eq_ok.mp h
  exact hw

theorem readOnly_handle (ref : HandleRef) : ReadOnly (handle ref) := by
  intro w r w' h
  obtain ⟨a, -, -, hw⟩ := handle_eq_ok.mp h
  exact hw

theorem readOnly_iter (ref : IterRef) : ReadOnly (iter ref) := by
  intro w r w' h
  obtain ⟨a, -, -, hw⟩ := iter_eq_ok.mp h
  exact hw

theorem readOnly_treeAt (t : Nat) : ReadOnly (treeAt t) := by
  intro w r w' h
  obtain ⟨a, -, -, hw⟩ := treeAt_eq_ok.mp h
  exact hw

theorem quiet_pure (a : α) : Quiet (pure a : PyM α) := by
  intro w e w' h
  cases h

theorem quiet_handle (ref : HandleRef) : Quiet (handle ref) := by
  intro w e w' h
  obtain ⟨_, -, hr, -⟩ := handle_eq_ok.mp h
  cases hr

theorem quiet_setIter (ref : IterRef) (it : SExpIter) : Quiet (setIter ref it) := by
  intro w e w' h
  cases h

theorem quiet_fromShared (t : Nat) (node : NodeId) (version : UInt64) :
    Quiet (fromShared t node version) := by
  intro w e w' h
  cases h

theorem quiet_fromSharedAll (t : Nat) (nodes : List NodeId) (version : UInt64) :
    Quiet (fromSharedAll t nodes version) := by
  intro w e w' h
  cases h

theorem quiet_fromTree (tree : Tree) : Quiet (fromTree tree) := by
  intro w e w' h
  cases h

theorem quiet_newIter (t : Nat) (next : Option NodeId) (version : UInt64) :
    Quiet (newIter t next version) := by
  intro w e w' h
  cases h

/-- A method that never raises is failure-atomic. -/
theorem Quiet.atomic (hx : Quiet x) : Atomic x := fun w e w' h => absurd h (hx w e w')

/-- A sequence of methods that only read only reads. -/
theorem ReadOnly.bind (hx : ReadOnly x) (hf : ∀ a, ReadOnly (f a)) : ReadOnly (x >>= f) := by
  intro w r w' h
  rcases hxw : x w with fault | ⟨e | a, w₁⟩
  · simp [bind_of_fault hxw] at h
  · rw [bind_of_error hxw] at h
    cases h
    exact hx _ _ _ hxw
  · rw [bind_of_ok hxw] at h
    rw [hf a _ _ _ h, hx _ _ _ hxw]

/-- A method that only reads is failure-atomic. -/
theorem ReadOnly.atomic (hx : ReadOnly x) : Atomic x := fun _ _ _ h => hx _ _ _ h

/-- Reading first keeps a method failure-atomic. -/
theorem Atomic.bind (hx : ReadOnly x) (hf : ∀ a, Atomic (f a)) : Atomic (x >>= f) := by
  intro w e w' h
  rcases bind_eq_error.mp h with h | ⟨a, w₁, hxw, h⟩
  · exact hx _ _ _ h
  · rw [hf a _ _ _ h, hx _ _ _ hxw]

/-- Going on without raising keeps a method failure-atomic. -/
theorem Atomic.bind_quiet (hx : Atomic x) (hf : ∀ a, Quiet (f a)) : Atomic (x >>= f) := by
  intro w e w' h
  rcases bind_eq_error.mp h with h | ⟨a, w₁, -, h⟩
  · exact hx _ _ _ h
  · exact absurd h (hf a _ _ _)

/-- A sequence of methods that never raise never raises. -/
theorem Quiet.bind (hx : Quiet x) (hf : ∀ a, Quiet (f a)) : Quiet (x >>= f) := by
  intro w e w' h
  rcases bind_eq_error.mp h with h | ⟨a, w₁, -, h⟩
  · exact hx _ _ _ h
  · exact hf a _ _ _ h

/-- Mapping over a method that never raises never raises. -/
theorem Quiet.map {g : α → β} (hx : Quiet x) : Quiet (g <$> x) := by
  intro w e w' h
  exact hx _ _ _ (map_eq_error.mp h)

/-- Mapping keeps a method failure-atomic. -/
theorem Atomic.map {g : α → β} (hx : Atomic x) : Atomic (g <$> x) := by
  intro w e w' h
  exact hx _ _ _ (map_eq_error.mp h)

end PyM

end Sexp
