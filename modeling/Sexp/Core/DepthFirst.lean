import Sexp.Core.Children
import Sexp.Core.Contract

/-! # Depth-first traversal

Recursion over a subtree follows the forward links and calls itself for every child (`foldSubtree`);
on a tree that represents a forest it is recursion over the rose tree below the node. The
depth-first iterator does without the recursion: its stack is refilled by backward walks. It yields
the recursive pre-order. -/

namespace Sexp

open Library (OrderedForest Rose Spans Answers Clears)

variable {tree : Tree} {F : OrderedForest NodeId NodeType} {n : NodeId}

/-! ## Recursion over a subtree -/

/-- Recursion over the subtree of a node: the values of its children, in forward sibling order, are
combined with its contents. -/
def foldSubtree {β : Type} (combine : NodeId → NodeType → List β → β) :
    Nat → Tree → NodeId → Exec β
  | 0, _, _ => .error .outOfFuel
  | fuel + 1, tree, node => do
      let data ← tree.get node
      let children ← (← ChildIter.new tree node).collect fuel tree
      let below ← children.mapM (foldSubtree combine fuel tree)
      return combine node data.kind below

/-- The nodes of the subtree of a node in pre-order: the node, then the pre-orders of its children,
in forward sibling order. -/
def preorder (fuel : Nat) (tree : Tree) (node : NodeId) : Exec (List NodeId) :=
  foldSubtree (fun node _ below => node :: below.flatten) fuel tree node

/-- **Recursion over a subtree** is recursion over the rose tree that spans it. -/
theorem foldSubtree_answers {β : Type} (combine : NodeId → NodeType → List β → β)
    (h : tree.Represents F) {r : Rose NodeId} (hr : Spans F.children r)
    (hroot : tree.Live r.root) :
    Answers (fun fuel => foldSubtree combine fuel tree r.root)
      (r.fold fun id below => combine id ((F.label id).getD .list) below) := by
  induction hr with
  | @node n ks hkids hspans ih =>
      have hks : ∀ k ∈ ks, tree.Live k.root := h.live_kids hkids
      obtain ⟨m, hm⟩ := Option.isSome_iff_exists.mp hroot
      rw [Rose.root_node] at hm hroot ⊢
      obtain ⟨hlabel, -⟩ := h.eq_nodeOf hm
      obtain ⟨hwalk, hlive⟩ := h.walk_children hm
      rw [hkids] at hwalk hlive
      -- the recursive calls, one for each child
      have hbelow : Answers (fun fuel => (ks.map Rose.root).mapM (foldSubtree combine fuel tree))
          (ks.map (Rose.fold fun id below => combine id ((F.label id).getD .list) below)) := by
        have := Answers.mapM fun k hk => ih k hk (hks k hk)
        simpa only [List.mapM_map, Function.comp_def] using this
      rw [Rose.fold_node, hlabel, Option.getD_some]
      apply Answers.succ
      simp only [foldSubtree]
      exact .bind (.const fun _ => Slab.index_eq_ok.mpr hm) (.bind
        (.const fun _ => ChildIter.new_eq hm) (.bind (ChildIter.collect_answers hwalk hlive)
          (.bind hbelow (.const fun _ => rfl))))

/-- The recursive pre-order is that of the spanning rose tree. -/
theorem preorder_answers (h : tree.Represents F) {r : Rose NodeId} (hr : Spans F.children r)
    (hroot : tree.Live r.root) : Answers (fun fuel => preorder fuel tree r.root) r.ids := by
  have := foldSubtree_answers (fun id _ below => id :: below.flatten) h hr hroot
  rwa [Rose.fold_ids] at this

/-! ## The iterator -/

namespace DepthFirstIter

/-- One pass yields the node on top of the stack and leaves its children there, in order. -/
theorem collectPass_answers (h : tree.Represents F) (hn : tree.Live n) (seen stack : List NodeId) :
    Answers (fun fuel => collectPass tree fuel (seen, n :: stack))
      (.again (n :: seen, F.children n ++ stack)) := by
  obtain ⟨m, hm⟩ := Option.isSome_iff_exists.mp hn
  have hlast : tree.lastChild n = .ok m.lastChild := by
    rw [Tree.lastChild, Tree.get, Slab.index_eq_ok.mpr hm]
    rfl
  have hpush := pushChildren_children (fun child _ => child) (F.children n) m.lastChild stack
    (h.isChildList hm).backward (h.walk_children hm).2
  rw [List.map_id'] at hpush
  have hstep : Answers (fun fuel => step fuel tree ⟨n :: stack⟩)
      (some (n, ⟨F.children n ++ stack⟩)) :=
    .bind (.const fun _ => hlast) (.bind hpush (.const fun _ => rfl))
  exact .bind hstep (.const fun _ => rfl)

/-- Subtrees on the stack are yielded one after the other. -/
theorem collectPass_clears_all {ks : List (Rose NodeId)}
    (hks : ∀ k ∈ ks, ∀ seen,
      Clears .outOfFuel (collectPass tree) seen [k.root] (k.ids.reverse ++ seen))
    (seen : List NodeId) :
    Clears .outOfFuel (collectPass tree) seen (ks.map Rose.root)
      ((Rose.idsAll ks).reverse ++ seen) := by
  induction ks generalizing seen with
  | nil => exact .nil _
  | cons k ks ih =>
      have hk := hks k List.mem_cons_self seen
      have hrest := ih (fun q hq => hks q (List.mem_cons_of_mem k hq)) (k.ids.reverse ++ seen)
      rw [Rose.idsAll_cons, List.reverse_append, List.append_assoc]
      exact hk.append hrest

/-- **The stack stands for the recursion.** The root of a subtree is taken off the stack, and the
nodes of the subtree are yielded in pre-order, whatever lies below on the stack. -/
theorem collectPass_clears (h : tree.Represents F) {r : Rose NodeId} (hr : Spans F.children r)
    (hroot : tree.Live r.root) (seen : List NodeId) :
    Clears .outOfFuel (collectPass tree) seen [r.root] (r.ids.reverse ++ seen) := by
  induction hr generalizing seen with
  | @node n ks hkids hspans ih =>
      have hlive : ∀ k ∈ ks, tree.Live k.root := h.live_kids hkids
      rw [Rose.root_node] at hroot ⊢
      have hpass := fun stack => collectPass_answers h hroot seen stack
      rw [hkids] at hpass
      have hbelow := collectPass_clears_all (fun k hk => ih k hk (hlive k hk)) (n :: seen)
      have := Clears.push hpass hbelow
      simpa using this

/-- Iterating to exhaustion yields the pre-order of the spanning rose tree. -/
theorem collect_answers (h : tree.Represents F) {r : Rose NodeId} (hr : Spans F.children r)
    (hroot : tree.Live r.root) : Answers (fun fuel => (new r.root).collect fuel tree) r.ids := by
  have hclears := collectPass_clears h hr hroot []
  rw [List.append_nil] at hclears
  refine (hclears.loopAnswers (.const fun _ => ?_)).answers
  rw [collectPass]
  simp [step]

end DepthFirstIter

/-- **The depth-first iterator visits exactly the subtree in pre-order.** From a live node of a
consistent tree, iterating to exhaustion terminates and yields the recursive pre-order: every node
of the subtree occurs, once, and no other; and the children that the iterator over the children of a
yielded node gives occur in the same order. -/
theorem depthFirst_visits_subtree (h : tree.Consistent) (hn : tree.Live n) :
    ∃ l, Answers (fun fuel => (DepthFirstIter.new n).collect fuel tree) l ∧
      Answers (fun fuel => preorder fuel tree n) l ∧ l.Nodup ∧
      (∀ m, m ∈ l ↔ tree.AncestorOrSelf n m) ∧
      ∀ m ∈ l, ∃ children,
        Answers (fun fuel => do (← ChildIter.new tree m).collect fuel tree) children ∧
          children.Sublist l := by
  obtain ⟨F, hF⟩ := h.exists_represents
  obtain ⟨r, rfl, hr⟩ := F.exists_spans n
  refine ⟨r.ids, DepthFirstIter.collect_answers hF hr hn, preorder_answers hF hr hn,
    OrderedForest.nodup_ids hr, fun m => ?_, fun m hm => ⟨F.children m, ?_, hr.children_sublist hm⟩⟩
  · rw [hF.ancestorOrSelf_iff]
    exact OrderedForest.mem_ids_iff_mem_subtree hr
  · obtain ⟨k, hk⟩ := Option.isSome_iff_exists.mp (hF.live_of_mem_ids hr hn hm)
    obtain ⟨hwalk, hlive⟩ := hF.walk_children hk
    exact .bind (.const fun _ => ChildIter.new_eq hk) (ChildIter.collect_answers hwalk hlive)

/-- `threeNodes` with the atom below the root; the other list is not attached. -/
def listOfAtom : Tree where
  nodes :=
    ⟨[some { Node.newList with firstChild := some ⟨1⟩, lastChild := some ⟨1⟩, childCount := 1 },
      some { Node.newAtom (Atom.new "a") with parent := some ⟨0⟩ }, some Node.newList], []⟩
  root := ⟨0⟩
  version := 1
  bare := false
  reprCache := none

/-- `listOfAtom` is `threeNodes` after one append. -/
theorem listOfAtom_wellFormed : listOfAtom.WellFormed :=
  threeNodes_wellFormed.append (p := ⟨0⟩) (c := ⟨1⟩) rfl rfl rfl (by decide)
    (rfl : append 0 threeNodes ⟨0⟩ ⟨1⟩ = .ok listOfAtom)

/-- `depthFirst_visits_subtree` at `listOfAtom`. -/
theorem depthFirst_visits_subtree_listOfAtom :
    ∃ l, Answers (fun fuel => (DepthFirstIter.new ⟨0⟩).collect fuel listOfAtom) l ∧
      Answers (fun fuel => preorder fuel listOfAtom ⟨0⟩) l ∧ l.Nodup ∧
      ∀ m, m ∈ l ↔ listOfAtom.AncestorOrSelf ⟨0⟩ m := by
  obtain ⟨l, hcollect, hpreorder, hnodup, hmem, -⟩ :=
    depthFirst_visits_subtree listOfAtom_wellFormed.toConsistent (rfl : listOfAtom.Live ⟨0⟩)
  exact ⟨l, hcollect, hpreorder, hnodup, hmem⟩

/-- The list comes before its atom, and the node that is not attached does not occur. -/
example : (DepthFirstIter.new ⟨0⟩).collect 3 listOfAtom = .ok [⟨0⟩, ⟨1⟩] := by decide

end Sexp
