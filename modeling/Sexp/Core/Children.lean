import Sexp.Core.WellFormed

/-! # Reading the children of a node

The iterator over the children of a node follows the forward links. On a tree that represents a
forest it yields the child list of the node: the whole list (`collect_answers`), the child at a
position (`nth_answers`) and the first child that satisfies a predicate (`find_answers`). -/

namespace Sexp

open Library (OrderedForest Walk Answers LoopAnswers)

variable {tree : Tree} {F : OrderedForest NodeId NodeType} {p c : NodeId} {n : Node}
  {next : Option NodeId} {l : List NodeId}

/-- Reading the next sibling of a live node. -/
theorem Tree.nextSibling_of_live (h : tree.Live c) :
    tree.nextSibling c = .ok (tree.nextOf c) := by
  obtain ⟨m, hm⟩ := Option.isSome_iff_exists.mp h
  rw [Tree.nextSibling, Tree.get, Slab.index_eq_ok.mpr hm, Tree.nextOf, hm]
  rfl

namespace ChildIter

/-- An iterator at a live node yields it and goes on with the next sibling. -/
theorem step_of_live (h : tree.Live c) :
    step tree ⟨some c⟩ = .ok (some (c, ⟨tree.nextOf c⟩)) := by
  rw [step]
  simp only [Tree.nextSibling_of_live h, Library.ok_bind]
  rfl

/-- **Collecting gives the children that the forward links walk.** -/
theorem collect_answers (hwalk : Walk tree.nextOf next l) (hlive : ∀ c ∈ l, tree.Live c) :
    Answers (fun fuel => collect fuel tree ⟨next⟩) l := by
  suffices hloop : ∀ seen, LoopAnswers .outOfFuel (fun _ => collectPass tree) (⟨next⟩, seen)
      (seen.reverse ++ l) from (hloop []).answers
  induction l generalizing next with
  | nil =>
      intro seen
      obtain rfl : next = none := hwalk
      exact .leave (.const fun _ => by simp [collectPass, step])
  | cons c l ih =>
      intro seen
      obtain ⟨rfl, hrest⟩ := hwalk
      have hloop := ih hrest (fun d hd => hlive d (List.mem_cons_of_mem c hd)) (c :: seen)
      refine .again (.const fun _ => ?_) (by simpa using hloop)
      rw [collectPass, step_of_live (hlive c List.mem_cons_self)]
      rfl

/-- **The child at a position.** -/
theorem nth_answers (hwalk : Walk tree.nextOf next l) (hlive : ∀ c ∈ l, tree.Live c) (i : ℕ) :
    Answers (fun fuel => nth fuel tree ⟨next⟩ i) l[i]? := by
  suffices hloop : LoopAnswers .outOfFuel (fun _ => nthPass tree) (⟨next⟩, i) l[i]? from
    hloop.answers
  induction l generalizing next i with
  | nil =>
      obtain rfl : next = none := hwalk
      exact .leave (.const fun _ => by simp [nthPass, step])
  | cons c l ih =>
      obtain ⟨rfl, hrest⟩ := hwalk
      have hstep := step_of_live (hlive c List.mem_cons_self)
      cases i with
      | zero =>
          refine .leave (.const fun _ => ?_)
          rw [nthPass, hstep]
          rfl
      | succ i =>
          have hloop := ih hrest (fun d hd => hlive d (List.mem_cons_of_mem c hd)) i
          refine .again (.const fun _ => ?_) (by simpa using hloop)
          rw [nthPass, hstep]
          rfl

/-- **The first child that satisfies a predicate**, which answers on all of them. -/
theorem find_answers {q : NodeId → Exec Bool} {r : NodeId → Bool}
    (hwalk : Walk tree.nextOf next l) (hlive : ∀ c ∈ l, tree.Live c)
    (hq : ∀ c ∈ l, q c = .ok (r c)) :
    Answers (fun fuel => find fuel tree ⟨next⟩ q) (l.find? r) := by
  suffices hloop : LoopAnswers .outOfFuel (fun _ => findPass tree q) ⟨next⟩ (l.find? r) from
    hloop.answers
  -- induction on the children that are left; the loop leaves at the first one that satisfies `r`
  induction l generalizing next with
  | nil =>
      obtain rfl : next = none := hwalk
      exact .leave (.const fun _ => by simp [findPass, step])
  | cons c l ih =>
      obtain ⟨rfl, hrest⟩ := hwalk
      have hstep := step_of_live (hlive c List.mem_cons_self)
      have hpred := hq c List.mem_cons_self
      cases hr : r c with
      | true =>
          rw [List.find?_cons_of_pos hr]
          refine .leave (.const fun _ => ?_)
          rw [findPass, hstep]
          simp [hpred, hr]
      | false =>
          rw [List.find?_cons_of_neg (by simp [hr])]
          have hloop := ih hrest (fun d hd => hlive d (List.mem_cons_of_mem c hd))
            fun d hd => hq d (List.mem_cons_of_mem c hd)
          refine .again (.const fun _ => ?_) hloop
          rw [findPass, hstep]
          simp [hpred, hr]

end ChildIter

/-- **The children of a node of a forest** are walked by the forward links from its first child. -/
theorem Tree.Represents.walk_children (h : tree.Represents F) (hn : tree.nodes.get p = some n) :
    Walk tree.nextOf n.firstChild (F.children p) ∧ ∀ c ∈ F.children p, tree.Live c :=
  ⟨(h.isChildList hn).forward, fun _ hc => h.live_iff.mpr (F.live_child (F.mem_children.mp hc))⟩

/-- A new iterator is at the first child. -/
theorem ChildIter.new_eq (hn : tree.nodes.get p = some n) :
    ChildIter.new tree p = .ok ⟨n.firstChild⟩ := by
  rw [ChildIter.new, Tree.firstChild, Tree.get, Slab.index_eq_ok.mpr hn]
  rfl

end Sexp
