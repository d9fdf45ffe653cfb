import Mathlib.Data.Set.Card

/-! # Finite maps with fresh keys

A map that chooses the keys of its entries: `insert` answers with a key that is not bound, and binds
it; `remove` answers with the value of a key, if it has one, and unbinds it. The map says nothing
about which key is chosen, and a key may be chosen again after its removal. -/

namespace Sexp.Library

universe u v

variable {κ : Type u} {α : Type v}

/-- A call on a map with fresh keys, with its answer. -/
inductive MapCall (κ : Type u) (α : Type v) where
  /-- Inserting a value answers with its key. -/
  | insert (value : α) (key : κ)
  /-- Removing a key answers with its value, if it has one. -/
  | remove (key : κ) (answer : Option α)

/-- The key that a call is about. -/
def MapCall.key : MapCall κ α → κ
  | .insert _ key => key
  | .remove key _ => key

/-- The bound keys of a map. -/
def liveKeys (m : κ → Option α) : Set κ := {key | (m key).isSome}

@[simp] theorem mem_liveKeys {m : κ → Option α} {key : κ} :
    key ∈ liveKeys m ↔ (m key).isSome := Iff.rfl

/-- No key of the empty map is bound. -/
@[simp] theorem liveKeys_none : liveKeys (fun _ : κ => (none : Option α)) = ∅ := by
  ext key
  simp

variable [DecidableEq κ]

/-- **One call** on a map with fresh keys. -/
def FreshStep (m : κ → Option α) : MapCall κ α → (κ → Option α) → Prop
  | .insert value key, m' => m key = none ∧ m' = Function.update m key (some value)
  | .remove key answer, m' => answer = m key ∧ m' = Function.update m key none

variable {m m' : κ → Option α} {call : MapCall κ α}

/-- A call changes no other key. -/
theorem FreshStep.other (h : FreshStep m call m') {key : κ} (hkey : key ≠ call.key) :
    m' key = m key := by
  cases call with
  | insert value k =>
    rw [h.2]
    exact Function.update_of_ne hkey _ _
  | remove k answer =>
    rw [h.2]
    exact Function.update_of_ne hkey _ _

/-- Binding a key adds it to the bound ones. -/
theorem liveKeys_update_some (m : κ → Option α) (key : κ) (value : α) :
    liveKeys (Function.update m key (some value)) = insert key (liveKeys m) := by
  ext k
  by_cases hk : k = key
  · subst hk
    simp
  · simp [hk]

/-- Unbinding a key takes it from the bound ones. -/
theorem liveKeys_update_none (m : κ → Option α) (key : κ) :
    liveKeys (Function.update m key none) = liveKeys m \ {key} := by
  ext k
  by_cases hk : k = key
  · subst hk
    simp
  · simp [hk]

/-- An insertion binds one key more. -/
theorem ncard_insert {value : α} {key : κ} (hfin : (liveKeys m).Finite)
    (h : FreshStep m (.insert value key) m') : (liveKeys m').ncard = (liveKeys m).ncard + 1 := by
  have hnew : key ∉ liveKeys m := by simp [h.1]
  rw [h.2, liveKeys_update_some, Set.ncard_insert_of_notMem hnew hfin]

/-- The removal of a bound key binds one key less. -/
theorem ncard_remove {value : α} {key : κ} (hfin : (liveKeys m).Finite)
    (h : FreshStep m (.remove key (some value)) m') :
    (liveKeys m').ncard + 1 = (liveKeys m).ncard := by
  have hlive : key ∈ liveKeys m := by simp [← h.1]
  rw [h.2, liveKeys_update_none, Set.ncard_sdiff_singleton_add_one hlive hfin]

end Sexp.Library
