import Sexp.Py.Counting

/-! # Slots are reused

A slot is only added to the slab of a tree when no slot is free. So a tree has, at the end of every
run, as many slots as it had at the start, or as it had nodes at the end of one of the calls,
whichever is more (`slots_eq_peak`): removing and adding nodes over and over takes no memory. -/

namespace Sexp

open Library (Run)

variable {fuel : Nat} {w w' w₀ : World} {l : CallResult} {c : Call} {h : Handle} {t : ℕ}
  {tree tree' : Tree} {events : List ApiEvent}

/-- There are at least as many slots as live values. -/
theorem Slab.len_le {α : Type} (slab : Slab α) : slab.len ≤ slab.slots.length := Nat.sub_le _ _

/-- **An insertion adds a slot only when there are no others.** -/
theorem Slab.length_insert_eq {α : Type} {slab slab' : Slab α} {value : α} {key : Key}
    (h : slab.insert value = .ok (slab', key)) :
    slab'.slots.length = max slab.slots.length slab'.len := by
  rw [insert] at h
  split at h
  · -- a free slot is taken
    split at h
    · cases h
      simp [len]
    · cases h
  · cases h
    simp [len]

/-- Removing a subtree keeps the slots. -/
theorem remove_length {n : NodeId} (hremove : remove fuel tree n = .ok tree') :
    tree'.nodes.slots.length = tree.nodes.slots.length := by
  obtain ⟨tree₁, hunlink, hdrop⟩ := Library.bind_eq_ok.mp hremove
  obtain ⟨old, -, -, hrewrites⟩ := unlink_ok hunlink
  refine dropSubtree_invariant (fun t => t.nodes.slots.length = tree.nodes.slots.length)
    (fun _ => True) (fun t key ht _ => ?_)
    (fun _ _ _ _ _ => ⟨fun _ _ => trivial, fun _ _ => trivial⟩) hrewrites.length_eq trivial hdrop
  rw [← ht]
  exact Slab.length_remove _ _

/-- **A write adds slots only for the nodes that are there then.** -/
theorem World.Writes.length_slots (hwrite : w.Writes fuel h tree c tree') :
    tree'.nodes.slots.length = max tree.nodes.slots.length tree'.len := by
  have hkept : tree'.nodes.slots.length = tree.nodes.slots.length →
      tree'.nodes.slots.length = max tree.nodes.slots.length tree'.len := fun heq => by
    rw [← heq]
    exact (max_eq_left tree'.nodes.len_le).symm
  cases hwrite with
  | cache htext => exact hkept rfl
  | value hm hatom => exact hkept (List.length_modify _ _ _)
  | alloc hc halloc => exact Slab.length_insert_eq halloc.insert_eq
  | attach hop hrun => exact hkept (Attachment.run_relinked hrun).slots_eq
  | @remove _ tree₁ hc hne hremove =>
      have hlength : tree₁.nodes.slots.length = tree.nodes.slots.length := remove_length hremove
      exact hkept hlength

/-- The number of nodes of a tree. -/
def World.nodeCount (w : World) (t : ℕ) : ℕ := ((w.trees[t]?).map Tree.len).getD 0

/-- **The largest number of nodes** that a tree has at the end of one of the events. -/
def peak (t : ℕ) (events : List ApiEvent) : ℕ :=
  (events.map fun e => e.after.nodeCount t).foldr max 0

/-- **A call adds slots to a tree only for the nodes that are there then.** -/
theorem ApiStep.length_slots (hstep : ApiStep w l w') (ht : w.trees[t]? = some tree)
    (ht' : w'.trees[t]? = some tree') :
    tree'.nodes.slots.length = max tree.nodes.slots.length tree'.len := by
  have hself : tree.nodes.slots.length = max tree.nodes.slots.length tree.len :=
    (max_eq_left tree.nodes.len_le).symm
  rcases hstep.cases with ⟨-, rfl⟩ | ⟨fuel, v, -, heffect⟩
  · obtain rfl := Option.some.inj (ht.symm.trans ht')
    exact hself
  · obtain ⟨tree₁, ht₁, hcases⟩ := heffect.tree_step ht
    obtain rfl := Option.some.inj (ht'.symm.trans ht₁)
    rcases hcases with rfl | ⟨self, h, -, -, -, hwrite⟩
    · exact hself
    · exact hwrite.length_slots

/-- **Slots are reused**, in every run from every state: at the end a tree has as many slots as it
had at the start, or as it had nodes at the end of one of the calls. -/
theorem slots_eq_peak (hrun : Run ApiStep w₀ events w) (ht : w₀.trees[t]? = some tree) :
    ∃ tree', w.trees[t]? = some tree' ∧
      tree'.nodes.slots.length = max tree.nodes.slots.length (peak t events) := by
  induction hrun with
  | nil => exact ⟨tree, ht, by simp [peak]⟩
  | @cons events s s' l run hstep ih =>
      obtain ⟨tree₁, ht₁, hslots⟩ := ih
      obtain ⟨tree', ht'⟩ := hstep.tree_stays ht₁
      have hcount : s'.nodeCount t = tree'.len := by rw [World.nodeCount, ht']; rfl
      refine ⟨tree', ht', ?_⟩
      rw [hstep.length_slots ht₁ ht', hslots, max_assoc, max_comm (peak t events), ← hcount]
      rfl

/-- `slots_eq_peak` at `l = t.new_list(); l.remove(); z = t.new_list()` after `t = SExp()`: three
nodes have been created, and two slots are enough. -/
theorem slots_eq_peak_reuse : ∃ tree, afterReuse.trees[0]? = some tree ∧
    tree.nodes.slots.length = max singleList.nodes.slots.length
      (peak 0 [⟨afterRemove, ⟨.newList 0, .ok (.sexp 2)⟩, afterReuse⟩,
        ⟨twoLists, ⟨.remove 1, .ok .none⟩, afterRemove⟩,
        ⟨oneList, ⟨.newList 0, .ok (.sexp 1)⟩, twoLists⟩]) ∧
    tree.nodes.slots.length = 2 := by
  obtain ⟨tree, ht, hslots⟩ :=
    slots_eq_peak (((Run.nil.cons step_twoLists).cons step_afterRemove).cons step_afterReuse)
      (rfl : oneList.trees[0]? = some singleList)
  exact ⟨tree, ht, hslots, hslots.trans (by decide +kernel)⟩

end Sexp
