import Sexp.Core.Children
import Sexp.Py.Cache
import Sexp.Py.Equality
import Sexp.Py.Snapshots

/-! # Methods finish

A method finishes when it answers a value or an exception, so that it neither panics nor runs
forever. In a sound world every method whose receiver exists finishes, as long as what its code does
on the tree of the receiver ends (`SExp.withTree_finishes`, `SExp.withTreeMut_finishes`). -/

namespace Sexp

open Library (Answers)

variable {α β : Type} {w w' : World} {ref : HandleRef} {h : Handle} {tree : Tree}

/-- **A method finishes**: for sufficiently large fuel it gives a value or an exception. -/
def Finishes (m : ℕ → PyM α) (w : World) : Prop :=
  ∃ r w', Answers (fun fuel => m fuel w) (r, w')

namespace Finishes

variable {m : ℕ → PyM α} {f : ℕ → α → PyM β}

/-- A method without loops that gives a result. -/
theorem const {x : PyM α} {r : Except PyErr α} (hx : x w = .ok (r, w')) :
    Finishes (fun _ => x) w := ⟨r, w', .const fun _ => hx⟩

/-- **Sequencing.** -/
theorem bind (hm : Finishes m w)
    (hf : ∀ a w', Answers (fun fuel => m fuel w) (.ok a, w') → Finishes (fun fuel => f fuel a) w') :
    Finishes (fun fuel => m fuel >>= f fuel) w := by
  obtain ⟨r, w₁, hanswers⟩ := hm
  obtain ⟨bound, hbound⟩ := hanswers
  rcases r with e | a
  · exact ⟨.error e, w₁, bound, fun fuel hle => PyM.bind_of_error (hbound fuel hle)⟩
  · obtain ⟨r', w₂, bound', hbound'⟩ := hf a w₁ ⟨bound, hbound⟩
    refine ⟨r', w₂, max bound bound', fun fuel hle => ?_⟩
    have hfirst := hbound fuel (le_trans (le_max_left bound bound') hle)
    have hsecond := hbound' fuel (le_trans (le_max_right bound bound') hle)
    show (m fuel >>= f fuel) w = .ok (r', w₂)
    rw [PyM.bind_of_ok hfirst]
    exact hsecond

/-- Going on after a method that only reads. -/
theorem bind_readOnly (hm : Finishes m w) (hread : ∀ fuel, (m fuel).ReadOnly)
    (hf : ∀ a, Finishes (fun fuel => f fuel a) w) : Finishes (fun fuel => m fuel >>= f fuel) w := by
  refine bind hm fun a w₁ hanswers => ?_
  obtain ⟨fuel, hfuel⟩ := hanswers.exists_fuel
  rw [hread fuel _ _ _ hfuel]
  exact hf a

/-- Mapping over a method. -/
theorem map (hm : Finishes m w) (g : α → β) : Finishes (fun fuel => g <$> m fuel) w :=
  bind hm fun _ _ _ => const rfl

/-- Running code that answers. -/
theorem lift {x : ℕ → Exec α} {a : α} (hx : Answers x a) :
    Finishes (fun fuel => PyM.lift (x fuel)) w := by
  obtain ⟨bound, hbound⟩ := hx
  exact ⟨.ok a, w, bound, fun fuel hle => PyM.lift_eq_ok.mpr ⟨a, hbound fuel hle, rfl, rfl⟩⟩

/-- Going on after a method that returns and leaves the objects alone. -/
theorem return_bind {x : PyM α} {a : α} (hx : x w = .ok (.ok a, w))
    (hf : Finishes (fun fuel => f fuel a) w) : Finishes (fun fuel => x >>= f fuel) w := by
  obtain ⟨r, w₁, bound, hbound⟩ := hf
  refine ⟨r, w₁, bound, fun fuel hle => ?_⟩
  show (x >>= f fuel) w = .ok (r, w₁)
  rw [PyM.bind_of_ok hx]
  exact hbound fuel hle

/-- A method that raises is over. -/
theorem raise_bind {x : PyM α} {e : PyErr} (hx : x w = .ok (.error e, w')) :
    Finishes (fun fuel => x >>= f fuel) w :=
  ⟨.error e, w', .const fun _ => PyM.bind_of_error hx⟩

/-- Looking up a handle that exists. -/
theorem handle_bind {f : ℕ → Handle → PyM β} (hh : w.handles[ref]? = some h)
    (hf : Finishes (fun fuel => f fuel h) w) :
    Finishes (fun fuel => PyM.handle ref >>= f fuel) w :=
  return_bind (PyM.handle_apply hh) hf

/-- Looking up a tree that exists. -/
theorem treeAt_bind {f : ℕ → Tree → PyM β} {t : Nat} (ht : w.trees[t]? = some tree)
    (hf : Finishes (fun fuel => f fuel tree) w) :
    Finishes (fun fuel => PyM.treeAt t >>= f fuel) w :=
  return_bind (PyM.treeAt_apply ht) hf

end Finishes

/-! ## Receivers -/

/-- **A handle of a sound world** has a tree, and can be used or is stale. -/
theorem World.Sound.handle_cases (hsound : w.Sound) (href : ref < w.handles.length) :
    ∃ (h : Handle) (tree : Tree), w.handles[ref]? = some h ∧ w.trees[h.tree]? = some tree ∧
      (h.isStale tree = true ∨ w.Receives ref h tree) := by
  obtain ⟨h, hh⟩ : ∃ h, w.handles[ref]? = some h := ⟨_, List.getElem?_eq_getElem href⟩
  obtain ⟨tree, ht, -, -⟩ := hsound.snapshots.handles h (List.mem_of_getElem? hh)
  refine ⟨h, tree, hh, ht, ?_⟩
  cases hstale : h.isStale tree with
  | true => exact .inl rfl
  | false => exact .inr ⟨hh, ht, hstale⟩

/-- The tree of a receiver is consistent. -/
theorem World.Sound.consistent (hsound : w.Sound) (hrec : w.Receives ref h tree) :
    tree.Consistent :=
  (hsound.wellFormed tree (List.mem_of_getElem? hrec.tree_eq)).toConsistent

/-- The node of a receiver can be read. -/
theorem World.Sound.get (hsound : w.Sound) (hrec : w.Receives ref h tree) :
    ∃ n, tree.nodes.get h.node = some n := Option.isSome_iff_exists.mp (hsound.live hrec)

namespace SExp

/-- **A method that looks up its receiver finishes**, when it finishes on every receiver. -/
theorem receiver_finishes (hsound : w.Sound) (href : ref < w.handles.length)
    {g : ℕ → Handle → Tree → PyM α}
    (hg : ∀ h tree, w.Receives ref h tree → Finishes (fun fuel => g fuel h tree) w) :
    Finishes (fun fuel => do
      let h ← PyM.handle ref
      let tree ← PyM.treeAt h.tree
      if h.isStale tree then PyM.raise staleError else g fuel h tree) w := by
  obtain ⟨h, tree, hh, ht, hstale | hrec⟩ := hsound.handle_cases href
  · refine .handle_bind hh (.treeAt_bind ht ?_)
    simp only [if_pos hstale]
    exact .const rfl
  · refine .handle_bind hh (.treeAt_bind ht ?_)
    simp only [hrec.fresh, if_neg Bool.false_ne_true]
    exact hg h tree hrec

/-- **A method that reads its tree finishes**, when its code does on every receiver. -/
theorem withTree_finishes (hsound : w.Sound) (href : ref < w.handles.length)
    {f : ℕ → Tree → NodeId → Exec (Except PyErr α)}
    (hf : ∀ h tree, w.Receives ref h tree → ∃ r, Answers (fun fuel => f fuel tree h.node) r) :
    Finishes (fun fuel => withTree ref (f fuel)) w := by
  refine receiver_finishes hsound href fun h tree hrec => ?_
  obtain ⟨r, hr⟩ := hf h tree hrec
  exact .bind_readOnly (.lift hr) (fun _ => PyM.readOnly_lift _) fun _ => .const rfl

/-- **A method that writes its tree finishes**, when its code does on every receiver. -/
theorem withTreeMut_finishes (hsound : w.Sound) (href : ref < w.handles.length)
    {f : ℕ → Tree → NodeId → Exec (Except PyErr α × Tree)}
    (hf : ∀ h tree, w.Receives ref h tree → ∃ r, Answers (fun fuel => f fuel tree h.node) r) :
    Finishes (fun fuel => withTreeMut ref (f fuel)) w := by
  refine receiver_finishes hsound href fun h tree hrec => ?_
  obtain ⟨⟨r, tree'⟩, hr⟩ := hf h tree hrec
  refine .bind_readOnly (.lift hr) (fun _ => PyM.readOnly_lift _) fun ⟨r, tree'⟩ => ?_
  rcases r with e | a
  · exact .const rfl
  · refine .bind (.const rfl) fun _ _ _ => .bind (.const rfl) fun b w₂ _ => ?_
    exact .bind (.const (refresh_apply h tree' w₂)) fun _ _ _ => .const rfl

/-- Reading a tree and then creating objects finishes, when the code does on every receiver. -/
theorem read_finishes (hsound : w.Sound) (href : ref < w.handles.length)
    {f : ℕ → Tree → NodeId → Exec (Except PyErr α)} {g : α × UInt64 → PyM β}
    (hf : ∀ h tree, w.Receives ref h tree → ∃ r, Answers (fun fuel => f fuel tree h.node) r)
    (hg : ∀ p, Finishes (fun _ => g p) w) :
    Finishes (fun fuel => withTree ref (versioned (f fuel)) >>= g) w := by
  refine .bind_readOnly (withTree_finishes hsound href fun h tree hrec => ?_)
    (fun _ => withTree_readOnly) hg
  obtain ⟨r, hr⟩ := hf h tree hrec
  rcases r with e | a
  · exact ⟨.error e, .bind hr (.const fun _ => rfl)⟩
  · exact ⟨.ok (a, tree.version), .bind hr (.const fun _ => rfl)⟩

/-- Creating a handle finishes. -/
theorem share_finishes (href : ref < w.handles.length) (node : NodeId) (version : UInt64) :
    Finishes (fun _ => share ref node version) w := by
  obtain ⟨h, hh⟩ : ∃ h, w.handles[ref]? = some h := ⟨_, List.getElem?_eq_getElem href⟩
  exact .const (share_apply hh node version)

/-- Creating handles finishes. -/
theorem shareAll_finishes (href : ref < w.handles.length) (nodes : List NodeId)
    (version : UInt64) : Finishes (fun _ => shareAll ref nodes version) w := by
  obtain ⟨h, hh⟩ : ∃ h, w.handles[ref]? = some h := ⟨_, List.getElem?_eq_getElem href⟩
  exact .const (shareAll_apply hh nodes version)

/-- Creating an iterator finishes. -/
theorem shareIter_finishes (href : ref < w.handles.length) (next : Option NodeId)
    (version : UInt64) : Finishes (fun _ => shareIter ref next version) w := by
  obtain ⟨h, hh⟩ : ∃ h, w.handles[ref]? = some h := ⟨_, List.getElem?_eq_getElem href⟩
  exact .const (shareIter_apply hh next version)

end SExp

end Sexp
