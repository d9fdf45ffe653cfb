import Sexp.Core.AnyTree
import Sexp.Parse.Correctness
import Sexp.Py.Totality

/-! # A call has one outcome

More fuel does not change what a method does (`call_mono`): fuel only tells how far the loops may
go. A step of the library is therefore determined by its call, and what a call answers is what every
step of that call gives (`ApiStep.eq_of_answers`). -/

namespace Sexp

open Library (FuelMono Answers)

variable {α β : Type} {w w' : World} {tree : Tree} {c : Call}

/-! ## Loops over the children -/

namespace ChildIter

/-- More fuel does not change which children are collected. -/
theorem collect_mono (tree : Tree) (iter : ChildIter) :
    FuelMono fun fuel => iter.collect fuel tree := .iterate_const _ _

/-- More fuel does not change which child is found. -/
theorem find_mono (tree : Tree) (iter : ChildIter) (p : NodeId → Exec Bool) :
    FuelMono fun fuel => iter.find fuel tree p := .iterate_const _ _

/-- More fuel does not change which child is at a position. -/
theorem nth_mono (tree : Tree) (iter : ChildIter) (n : ℕ) :
    FuelMono fun fuel => iter.nth fuel tree n := .iterate_const _ _

end ChildIter

/-- More fuel does not change the result of comparing two subtrees. -/
theorem subtreesEqual_mono (left : Tree) (n : NodeId) (right : Tree) (m : NodeId) :
    FuelMono fun fuel => subtreesEqual fuel left n right m := by
  refine .iterate (fun pairs => ?_) _
  rcases pairs with _ | ⟨⟨l, r⟩, pairs⟩
  · exact .const _
  · refine .bind (.const _) fun nl => .bind (.const _) fun nr => ?_
    rcases nl.kind with la | _ <;> rcases nr.kind with ra | _
    · exact .const _
    · exact .const _
    · exact .const _
    · exact .ite (.const _) (.bind (.iterate_const _ _) fun _ => .const _)

/-- More fuel does not change the result of extracting a subtree. -/
theorem extractSubtree_mono (tree : Tree) (node : NodeId) :
    FuelMono fun fuel => extractSubtree fuel tree node := by
  refine .bind (cloneSubtree_mono tree node) fun extracted => .ite (.const _) ?_
  exact .bind (remove_mono tree node) fun _ => .const _

/-! ## Methods -/

/-- **A method whose outcome does not depend on the fuel**, as long as there is enough of it. -/
def PyM.Mono (m : ℕ → PyM α) : Prop := ∀ w, FuelMono fun fuel => m fuel w

namespace PyM.Mono

variable {m : ℕ → PyM α} {f : ℕ → α → PyM β}

/-- A method without loops. -/
theorem const (x : PyM α) : Mono fun _ => x := fun _ => .const _

/-- **Sequencing.** -/
theorem bind (hm : Mono m) (hf : ∀ a, Mono fun fuel => f fuel a) :
    Mono fun fuel => m fuel >>= f fuel := by
  intro w fuel fuel' x hle hx
  change (m fuel >>= f fuel) w = .ok x at hx
  show (m fuel' >>= f fuel') w = .ok x
  rcases hfirst : m fuel w with fault | ⟨e | a, w₁⟩
  · rw [PyM.bind_of_fault hfirst] at hx
    cases hx
  · rw [PyM.bind_of_error hfirst] at hx
    rw [PyM.bind_of_error (hm w fuel fuel' _ hle hfirst)]
    exact hx
  · rw [PyM.bind_of_ok hfirst] at hx
    rw [PyM.bind_of_ok (hm w fuel fuel' _ hle hfirst)]
    exact hf a w₁ fuel fuel' x hle hx

/-- Mapping over a method. -/
theorem map (hm : Mono m) (g : α → β) : Mono fun fuel => g <$> m fuel :=
  bind hm fun _ => const _

/-- Going on after a method without loops. -/
theorem const_bind (x : PyM α) (hf : ∀ a, Mono fun fuel => f fuel a) :
    Mono fun fuel => x >>= f fuel := bind (const x) hf

/-- Running code. -/
theorem lift {x : ℕ → Exec α} (hx : FuelMono x) : Mono fun fuel => PyM.lift (x fuel) :=
  fun _ => .bind hx fun _ => .const _

/-- A method that goes on unless some condition holds. -/
theorem otherwise {g : ℕ → PyM α} {p : Prop} [Decidable p] (x : PyM α) (hg : Mono g) :
    Mono fun fuel => if p then x else g fuel := by
  by_cases hp : p
  · simpa only [if_pos hp] using const x
  · simpa only [if_neg hp] using hg

end PyM.Mono

namespace SExp

variable {self : HandleRef}

open PyM (Mono)

/-- A method that looks up its receiver. -/
theorem receiver_mono {g : ℕ → Handle → Tree → PyM α}
    (hg : ∀ h tree, Mono fun fuel => g fuel h tree) :
    Mono (fun fuel => do
      let h ← PyM.handle self
      let tree ← PyM.treeAt h.tree
      if h.isStale tree then PyM.raise staleError else g fuel h tree) :=
  .const_bind _ fun h => .const_bind _ fun tree => .otherwise _ (hg h tree)

/-- A method that reads its tree. -/
theorem withTree_mono {f : ℕ → Tree → NodeId → Exec (Except PyErr α)}
    (hf : ∀ tree node, FuelMono fun fuel => f fuel tree node) :
    Mono fun fuel => withTree self (f fuel) :=
  receiver_mono fun h tree => .bind (.lift (hf tree h.node)) fun _ => .const _

/-- A method that writes its tree. -/
theorem withTreeMut_mono {f : ℕ → Tree → NodeId → Exec (Except PyErr α × Tree)}
    (hf : ∀ tree node, FuelMono fun fuel => f fuel tree node) :
    Mono fun fuel => withTreeMut self (f fuel) :=
  receiver_mono fun h tree => .bind (.lift (hf tree h.node)) fun _ => .const _

/-- A method that reads its tree and the version, and goes on. -/
theorem read_mono {f : ℕ → Tree → NodeId → Exec (Except PyErr α)} {g : α × UInt64 → PyM β}
    (hf : ∀ tree node, FuelMono fun fuel => f fuel tree node) :
    Mono fun fuel => withTree self (versioned (f fuel)) >>= g := by
  refine .bind (withTree_mono fun tree node => .bind (hf tree node) fun r => ?_) fun _ => .const _
  rcases r with e | a
  · exact .const _
  · exact .const _

/-- Searching the children of a node. -/
theorem findChild_mono (tree : Tree) (node : NodeId) (p : NodeId → Exec Bool) :
    FuelMono fun fuel => findChild fuel tree node p :=
  .bind (.const _) fun iter => iter.find_mono tree p

/-- The child at an index. -/
theorem childAt_mono (index : Int) (tree : Tree) (node : NodeId) :
    FuelMono fun fuel => childAt fuel tree node index := by
  refine .bind (.const _) fun n => .ite (.const _) ?_
  refine .bind (.const _) fun iter => .bind (iter.nth_mono tree _) fun child => ?_
  rcases child with _ | child
  · exact .const _
  · exact .const _

/-- The child that a string key selects. -/
theorem childByKey_mono (key : String) (tree : Tree) (node : NodeId) :
    FuelMono fun fuel => childByKey fuel tree node key := by
  refine .bind (findChild_mono tree node _) fun child => ?_
  rcases child with _ | child
  · exact .const _
  · exact .const _

/-- The children that a key of a list selects. -/
theorem childrenAt_mono (key : PyKey) (tree : Tree) (node : NodeId) :
    FuelMono fun fuel => childrenAt fuel tree node key :=
  .bind (.const _) fun iter => .bind (iter.collect_mono tree) fun _ => .const _

/-- `repr`. -/
theorem repr_mono (self : HandleRef) : Mono fun fuel => repr fuel self := by
  refine receiver_mono fun h tree => .const_bind _ fun bare => .otherwise _ ?_
  rcases tree.cachedRepr h.node with _ | cached
  · exact withTreeMut_mono fun tree node => .bind (serializeNode_mono tree node) fun _ => .const _
  · exact .const _

/-- `==`. -/
theorem eq_mono (self : HandleRef) (other : PyArg) : Mono fun fuel => eq fuel self other := by
  rcases other with other | _ | _
  · refine .const_bind _ fun h => .const_bind _ fun o => ?_
    by_cases hsame : h.tree = o.tree
    · simp only [if_pos hsame]
      exact .const_bind _ fun tree => .otherwise _ (.lift (subtreesEqual_mono _ _ _ _))
    · simp only [if_neg hsame]
      refine .const_bind _ fun left => .otherwise _ (.const_bind _ fun right => ?_)
      exact .otherwise _ (.lift (subtreesEqual_mono _ _ _ _))
  · exact .const _
  · exact .const _

/-- `in`. -/
theorem contains_mono (self : HandleRef) (item : PyArg) :
    Mono fun fuel => contains fuel self item := by
  refine receiver_mono fun h tree => ?_
  rcases item with other | value | _
  · refine .const_bind _ fun o => .otherwise _ (.otherwise _ ?_)
    exact .bind (.lift (findChild_mono _ _ _)) fun _ => .const _
  · exact .bind (.lift (findChild_mono _ _ _)) fun _ => .const _
  · exact .const _

/-- `[]`. -/
theorem getItem_mono (self : HandleRef) (key : PyKey) :
    Mono fun fuel => getItem fuel self key := by
  rcases key with index | key | ⟨start, stop, step⟩ | _
  · exact .otherwise _ (read_mono (childAt_mono index))
  · exact read_mono (childByKey_mono key)
  · exact read_mono (childrenAt_mono _)
  · exact read_mono (childrenAt_mono _)

/-- A method that attaches, once it has looked up its receiver and its child. -/
theorem attach_mono {f : ℕ → Tree → NodeId → Exec Tree}
    (hf : ∀ tree node, FuelMono fun fuel => f fuel tree node) :
    Mono fun fuel => withTreeMut self fun tree node => do
      return ((.ok () : Except PyErr Unit), ← f fuel tree node) :=
  withTreeMut_mono fun tree node => .bind (hf tree node) fun _ => .const _

/-- `insert_after`. -/
theorem insertAfter_mono (self : HandleRef) (after : Option HandleRef) (child : HandleRef) :
    Mono fun fuel => insertAfter fuel self after child := by
  refine .const_bind _ fun h => .const_bind _ fun c => .const_bind _ fun _ => ?_
  refine .const_bind _ fun after => withTreeMut_mono fun tree node => .ite (.const _) ?_
  exact .bind (Sexp.insertAfter_mono tree node _ _) fun _ => .const _

/-- `remove`. -/
theorem remove_mono (self : HandleRef) : Mono fun fuel => remove fuel self := by
  refine withTreeMut_mono fun tree node => .ite (.const _) ?_
  exact .bind (Sexp.remove_mono tree node) fun _ => .const _

/-- `clone`. -/
theorem cloneNode_mono (self : HandleRef) : Mono fun fuel => cloneNode fuel self := by
  refine .bind (withTree_mono fun tree node => ?_) fun _ => .const _
  exact .bind (cloneSubtree_mono tree node) fun _ => .const _

/-- `extract`. -/
theorem extract_mono (self : HandleRef) : Mono fun fuel => extract fuel self := by
  refine .bind (withTreeMut_mono fun tree node => .ite (.const _) ?_) fun _ => .const _
  exact .bind (extractSubtree_mono tree node) fun _ => .const _

/-- `parse`. -/
theorem pyParse_mono (source : PySource) : Mono fun fuel => pyParse fuel source := by
  refine .bind ?_ fun parsed => ?_
  · rcases source with s | b | _
    · exact .lift (parse_mono s)
    · refine .lift ?_
      unfold parseBytes
      rcases String.fromUTF8? b with _ | s
      · exact .const _
      · exact parse_mono s
    · exact .const _
  · rcases parsed with e | tree
    · exact .const _
    · exact .const _

end SExp

/-- **More fuel does not change what a call does.** -/
theorem call_mono (c : Call) : PyM.Mono fun fuel => call fuel c := by
  cases c with
  | parse source => exact .map (SExp.pyParse_mono source) _
  | repr self => exact .map (SExp.repr_mono self) _
  | eq self other => exact .map (SExp.eq_mono self other) _
  | contains self item => exact .map (SExp.contains_mono self item) _
  | getItem self key => exact .map (SExp.getItem_mono self key) _
  | append self child =>
      refine .map (.const_bind _ fun h => .const_bind _ fun c => .const_bind _ fun _ => ?_) _
      exact SExp.attach_mono fun tree node => append_mono tree node c.node
  | prepend self child =>
      refine .map (.const_bind _ fun h => .const_bind _ fun c => .const_bind _ fun _ => ?_) _
      exact SExp.attach_mono fun tree node => prepend_mono tree node c.node
  | insertAfter self after child => exact .map (SExp.insertAfter_mono self after child) _
  | remove self => exact .map (SExp.remove_mono self) _
  | clone self => exact .map (SExp.cloneNode_mono self) _
  | extract self => exact .map (SExp.extract_mono self) _
  | _ => exact .const _

/-- **What a call answers is what every step of the call gives.** -/
theorem ApiStep.eq_of_answers {l : CallResult} {r : Except PyErr Value} {w₁ : World}
    (hstep : ApiStep w l w') (hanswers : Answers (fun fuel => call fuel l.call w) (r, w₁)) :
    l.result = r ∧ w' = w₁ := by
  obtain ⟨fuel, hfuel⟩ := hstep
  have heq := hanswers.eq_of_ok (call_mono l.call w) hfuel
  exact Prod.mk.inj heq

end Sexp
