import Sexp.Core.Allocation
import Sexp.Core.Removal

/-! # The contract of the mutations

What `append`, `prepend`, `insert_after` and `remove` promise on a well-formed tree, stated on the
forest that the tree represents: the subtree of the child changes its place and nothing else does,
or the subtree of the node disappears and nothing else does. -/

namespace Sexp

open Library (OrderedForest Answers FuelMono insertRight)

variable {tree tree' : Tree} {F G : OrderedForest NodeId NodeType} {parent child sibling n : NodeId}

/-! ## Statements about forests -/

/-- **`tree'` is `tree` with the subtree of `child` moved under `parent`**: `put` says where
`child` goes among the other children of `parent`. -/
def Tree.Moved (tree tree' : Tree) (parent child : NodeId)
    (put : List NodeId → List NodeId) : Prop :=
  ∃ F G, tree.Represents F ∧ tree'.Represents G ∧ G.label = F.label ∧
    (∀ m, G.parent m = if m = child then some parent else F.parent m) ∧
    ∀ q, G.children q =
      if q = parent then put ((F.children parent).erase child) else (F.children q).erase child

/-- **`tree'` is `tree` without the subtree of `n`.** -/
def Tree.Deleted (tree tree' : Tree) (n : NodeId) : Prop :=
  ∃ F G, tree.Represents F ∧ tree'.Represents G ∧
    (∀ m ∈ F.subtree n, G.label m = none) ∧
    ∀ m, m ∉ F.subtree n → G.label m = F.label m ∧ G.parent m = F.parent m ∧
      G.children m = (F.children m).erase n

/-- Moving a node in the forest. -/
theorem Tree.Moved.of_move {xs ys : List NodeId} {hp : (F.label parent).isSome}
    {hc : (F.label child).isSome} {hbelow : parent ∉ F.subtree child}
    {hgap : (F.children parent).erase child = xs ++ ys} {put : List NodeId → List NodeId}
    (h : tree.Represents F)
    (h' : tree'.Represents (F.move parent child xs ys hp hc hbelow hgap))
    (hput : put (xs ++ ys) = xs ++ child :: ys) : tree.Moved tree' parent child put := by
  refine ⟨F, _, h, h', rfl, fun m => OrderedForest.parent_move, fun q => ?_⟩
  rw [OrderedForest.children_move, hgap, hput]

/-- Deleting a node in the forest. -/
theorem Tree.Deleted.of_delete (h : tree.Represents F) (h' : tree'.Represents (F.delete n)) :
    tree.Deleted tree' n := by
  refine ⟨F, _, h, h', fun m hm => if_pos hm, fun m hm => ⟨if_neg hm, ?_, if_neg hm⟩⟩
  refine (if_neg hm).trans ?_
  rw [OrderedForest.parent_detach, if_neg]
  rintro rfl
  exact hm OrderedForest.self_mem_subtree

/-! ## The attaching operations -/

/-- **The three attaching operations**, as one family. -/
inductive Attachment where
  /-- `append`. -/
  | append
  /-- `prepend`. -/
  | prepend
  /-- `insert_after`. -/
  | insertAfter (after : Option NodeId)
  deriving DecidableEq

namespace Attachment

/-- The operation of the family. -/
def run (op : Attachment) (fuel : Nat) (tree : Tree) (parent child : NodeId) : Exec Tree :=
  match op with
  | append => Sexp.append fuel tree parent child
  | prepend => Sexp.prepend fuel tree parent child
  | insertAfter after => Sexp.insertAfter fuel tree parent after child

/-- Where the operation puts the child among the other children. -/
def put (op : Attachment) (child : NodeId) : List NodeId → List NodeId :=
  match op with
  | append => fun l => l ++ [child]
  | prepend | insertAfter none => fun l => child :: l
  | insertAfter (some sibling) => insertRight sibling child

/-- What `insert_after` expects of its sibling: it is a child of the parent other than the child. -/
def Fits (op : Attachment) (tree : Tree) (parent child : NodeId) : Prop :=
  match op with
  | insertAfter (some sibling) => tree.parentOf sibling = some parent ∧ sibling ≠ child
  | _ => True

/-- More fuel does not change the result. -/
theorem run_mono (op : Attachment) (tree : Tree) (parent child : NodeId) :
    FuelMono fun fuel => op.run fuel tree parent child := by
  cases op with
  | append => exact append_mono tree parent child
  | prepend => exact prepend_mono tree parent child
  | insertAfter after => exact insertAfter_mono tree parent after child

/-- Every operation relinks the tree. -/
theorem run_relinked {op : Attachment} {fuel : Nat}
    (h : op.run fuel tree parent child = .ok tree') : tree.Relinked tree' := by
  cases op with
  | append => exact append_relinked h
  | prepend => exact prepend_relinked h
  | insertAfter after => exact insertAfter_relinked h

/-- **The attaching operations move the subtree of the child**, on every tree that represents a
forest in which the child is neither the parent nor an ancestor of it. -/
theorem run_represents (op : Attachment) (hF : tree.Represents F) (hp : tree.Live parent)
    (hc : tree.Live child) (hbelow : ¬ tree.AncestorOrSelf child parent)
    (hfits : op.Fits tree parent child) :
    ∃ tree' G, Answers (fun fuel => op.run fuel tree parent child) tree' ∧ tree'.Represents G ∧
      tree.Moved tree' parent child (op.put child) := by
  have hpF := hF.live_iff.mp hp
  have hcF := hF.live_iff.mp hc
  have hb : parent ∉ F.subtree child := fun h => hbelow (hF.ancestorOrSelf_iff.mpr h)
  match op with
  | append =>
      obtain ⟨tree', hanswers, h'⟩ := append_represents hF hpF hcF hb
      exact ⟨tree', _, hanswers, h', .of_move hF h' (by simp [put])⟩
  | prepend =>
      obtain ⟨tree', hanswers, h'⟩ := prepend_represents hF hpF hcF hb
      exact ⟨tree', _, hanswers, h', .of_move hF h' (by simp [put])⟩
  | insertAfter none =>
      obtain ⟨tree', hanswers, h'⟩ := insertAfter_none_represents hF hpF hcF hb
      exact ⟨tree', _, hanswers, h', .of_move hF h' (by simp [put])⟩
  | insertAfter (some sibling) =>
      obtain ⟨hsibling, hne⟩ := hfits
      have hmem : sibling ∈ (F.children parent).erase child := by
        rw [(F.nodup_children parent).mem_erase_iff, F.mem_children, ← hF.parentOf_eq]
        exact ⟨hne, hsibling⟩
      have hnodup := (F.nodup_children parent).erase child
      obtain ⟨xs, ys, hgap, -, -, -⟩ := Library.exists_gap hnodup hmem
      have hsplit : (F.children parent).erase child = (xs ++ [sibling]) ++ ys := by
        simpa using hgap
      obtain ⟨tree', hanswers, h'⟩ := insertAfter_some_represents hF hpF hcF hb hsplit
      refine ⟨tree', _, hanswers, h', .of_move hF h' ?_⟩
      -- the sibling does not occur before itself
      have hs : sibling ∉ xs := by
        intro hx
        rw [hgap] at hnodup
        exact (List.nodup_cons.mp (List.nodup_middle.mp hnodup)).1 (List.mem_append_left ys hx)
      rw [List.append_assoc, List.singleton_append, put, Library.insertRight_append hs]
      simp

/-- **The contract of the attaching operations** on a consistent tree. -/
theorem run_consistent (op : Attachment) (hcons : tree.Consistent) (hp : tree.Live parent)
    (hc : tree.Live child) (hbelow : ¬ tree.AncestorOrSelf child parent)
    (hfits : op.Fits tree parent child) :
    ∃ tree', Answers (fun fuel => op.run fuel tree parent child) tree' ∧ tree'.Consistent ∧
      tree.Moved tree' parent child (op.put child) := by
  obtain ⟨F, hF⟩ := hcons.exists_represents
  obtain ⟨tree', G, hanswers, hG, hmoved⟩ := run_represents op hF hp hc hbelow hfits
  obtain ⟨fuel, hfuel⟩ := hanswers.exists_fuel
  exact ⟨tree', hanswers, hG.consistent ((run_relinked hfuel).slab hcons.slab), hmoved⟩

/-- **The contract of the attaching operations** on a well-formed tree. -/
theorem run_wellFormed (op : Attachment) (hwf : tree.WellFormed) (hp : tree.Live parent)
    (hc : tree.Live child) (hbelow : ¬ tree.AncestorOrSelf child parent)
    (hfits : op.Fits tree parent child) :
    ∃ tree', Answers (fun fuel => op.run fuel tree parent child) tree' ∧ tree'.WellFormed ∧
      tree.Moved tree' parent child (op.put child) := by
  obtain ⟨tree', hanswers, hcons, hmoved⟩ :=
    run_consistent op hwf.toConsistent hp hc hbelow hfits
  obtain ⟨fuel, hfuel⟩ := hanswers.exists_fuel
  have hrelinked := run_relinked hfuel
  refine ⟨tree', hanswers, ⟨hcons, ?_⟩, hmoved⟩
  rw [hrelinked.frame]
  exact (hrelinked.isSome_iff tree.root).mpr hwf.root_live

end Attachment

/-! ## The contract of all mutations -/

/-- **`remove` deletes the subtree** on a consistent tree. -/
theorem remove_consistent (hcons : tree.Consistent) (hn : tree.Live n) :
    ∃ tree', Answers (fun fuel => remove fuel tree n) tree' ∧ tree'.Consistent ∧
      tree.Deleted tree' n ∧ tree.SameFrame tree' ∧
      ∀ id, tree'.Live id ↔ tree.Live id ∧ ¬ tree.AncestorOrSelf n id := by
  obtain ⟨F, hF⟩ := hcons.exists_represents
  obtain ⟨tree', hanswers, h', hframe, -, hslab⟩ := remove_represents hF hn
  exact ⟨tree', hanswers, h'.consistent (hslab hcons.slab), .of_delete hF h', hframe,
    live_delete_iff hF h'⟩

/-- **`remove` deletes the subtree** on a well-formed tree, when the root is not in it. -/
theorem remove_contract (hwf : tree.WellFormed) (hn : tree.Live n)
    (hroot : ¬ tree.AncestorOrSelf n tree.root) :
    ∃ tree', Answers (fun fuel => remove fuel tree n) tree' ∧ tree'.WellFormed ∧
      tree.Deleted tree' n ∧
      ∀ id, tree'.Live id ↔ tree.Live id ∧ ¬ tree.AncestorOrSelf n id := by
  obtain ⟨tree', hanswers, hcons, hdeleted, hframe, hlive⟩ :=
    remove_consistent hwf.toConsistent hn
  refine ⟨tree', hanswers, ⟨hcons, ?_⟩, hdeleted, hlive⟩
  rw [hlive, hframe]
  exact ⟨hwf.root_live, hroot⟩

/-- **The core mutations refine an ordered forest.** On every well-formed tree the attaching
operations move the subtree of the child to its new place, and `remove` frees exactly the subtree
of its node; both give a well-formed tree. -/
theorem mutations_refine_forest (hwf : tree.WellFormed) :
    (∀ parent child, tree.Live parent → tree.Live child → ¬ tree.AncestorOrSelf child parent →
      (∃ tree', Answers (fun fuel => append fuel tree parent child) tree' ∧
        tree'.WellFormed ∧ tree.Moved tree' parent child fun l => l ++ [child]) ∧
      (∃ tree', Answers (fun fuel => prepend fuel tree parent child) tree' ∧
        tree'.WellFormed ∧ tree.Moved tree' parent child fun l => child :: l) ∧
      (∃ tree', Answers (fun fuel => insertAfter fuel tree parent none child) tree' ∧
        tree'.WellFormed ∧ tree.Moved tree' parent child fun l => child :: l) ∧
      ∀ sibling, tree.parentOf sibling = some parent → sibling ≠ child →
        ∃ tree', Answers (fun fuel => insertAfter fuel tree parent (some sibling) child) tree' ∧
          tree'.WellFormed ∧ tree.Moved tree' parent child (insertRight sibling child)) ∧
    ∀ n, tree.Live n → ¬ tree.AncestorOrSelf n tree.root →
      ∃ tree', Answers (fun fuel => remove fuel tree n) tree' ∧ tree'.WellFormed ∧
        tree.Deleted tree' n ∧
        ∀ id, tree'.Live id ↔ tree.Live id ∧ ¬ tree.AncestorOrSelf n id :=
  ⟨fun _ _ hp hc hbelow =>
      ⟨Attachment.run_wellFormed .append hwf hp hc hbelow trivial,
        Attachment.run_wellFormed .prepend hwf hp hc hbelow trivial,
        Attachment.run_wellFormed (.insertAfter none) hwf hp hc hbelow trivial,
        fun sibling hsibling hne =>
          Attachment.run_wellFormed (.insertAfter (some sibling)) hwf hp hc hbelow ⟨hsibling, hne⟩⟩,
    fun _ hn hroot => remove_contract hwf hn hroot⟩

/-! ## Sample trees -/

/-- Appending a node below one without a parent keeps a tree well-formed. -/
theorem Tree.WellFormed.append {p c : NodeId} {fuel : Nat} (hwf : tree.WellFormed)
    (hp : tree.Live p) (hc : tree.Live c) (hparent : tree.parentOf p = none) (hne : c ≠ p)
    (h : Sexp.append fuel tree p c = .ok tree') : tree'.WellFormed := by
  obtain ⟨tree₁, hanswers, hwf', -⟩ := Attachment.run_wellFormed .append hwf hp hc
    (Tree.not_ancestorOrSelf hne hparent) trivial
  obtain rfl := hanswers.eq_of_ok (append_mono _ _ _) h
  exact hwf'

/-- A tree with an empty list as its root, a detached atom and a detached list. -/
def threeNodes : Tree :=
  Tree.fromRaw ⟨[some Node.newList, some (Node.newAtom (Atom.new "a")), some Node.newList], []⟩ ⟨0⟩

/-- `threeNodes` is well-formed. -/
theorem threeNodes_wellFormed : threeNodes.WellFormed :=
  wellFormed_unlinked .list [.atom (Atom.new "a"), .list] (by decide)

/-- The tree of `((a (b)) c ())`, with its nodes in the order of the text. -/
def mixedTree : Tree where
  nodes :=
    ⟨[some { Node.newList with
        firstChild := some ⟨1⟩, lastChild := some ⟨6⟩, childCount := 3 },
      some { Node.newList with
        parent := some ⟨0⟩, firstChild := some ⟨2⟩, lastChild := some ⟨3⟩,
        nextSibling := some ⟨5⟩, childCount := 2 },
      some { Node.newAtom (Atom.new "a") with
        parent := some ⟨1⟩, nextSibling := some ⟨3⟩ },
      some { Node.newList with
        parent := some ⟨1⟩, firstChild := some ⟨4⟩, lastChild := some ⟨4⟩,
        previousSibling := some ⟨2⟩, childCount := 1 },
      some { Node.newAtom (Atom.new "b") with
        parent := some ⟨3⟩ },
      some { Node.newAtom (Atom.new "c") with
        parent := some ⟨0⟩, previousSibling := some ⟨1⟩, nextSibling := some ⟨6⟩ },
      some { Node.newList with
        parent := some ⟨0⟩, previousSibling := some ⟨5⟩ }], []⟩
  root := ⟨0⟩
  version := 0
  bare := false
  reprCache := none

/-- `mixedTree` is seven nodes after six appends, apart from the version. -/
theorem mixedTree_wellFormed : mixedTree.WellFormed := by
  have hnodes := wellFormed_unlinked .list
    [.list, .atom (Atom.new "a"), .list, .atom (Atom.new "b"), .atom (Atom.new "c"), .list]
    (by decide)
  -- the innermost list is filled first
  have hb := hnodes.append (p := ⟨3⟩) (c := ⟨4⟩) rfl rfl rfl (by decide)
    (rfl : Sexp.append 0 _ _ _ = .ok _)
  have ha := hb.append (p := ⟨1⟩) (c := ⟨2⟩) rfl rfl rfl (by decide)
    (rfl : Sexp.append 0 _ _ _ = .ok _)
  have hab := ha.append (p := ⟨1⟩) (c := ⟨3⟩) rfl rfl rfl (by decide)
    (rfl : Sexp.append 0 _ _ _ = .ok _)
  have hfirst := hab.append (p := ⟨0⟩) (c := ⟨1⟩) rfl rfl rfl (by decide)
    (rfl : Sexp.append 0 _ _ _ = .ok _)
  have hc := hfirst.append (p := ⟨0⟩) (c := ⟨5⟩) rfl rfl rfl (by decide)
    (rfl : Sexp.append 0 _ _ _ = .ok _)
  have hlast := hc.append (p := ⟨0⟩) (c := ⟨6⟩) rfl rfl rfl (by decide)
    (rfl : Sexp.append 0 _ _ _ = .ok _)
  exact ⟨hlast.toConsistent.of_nodes_eq rfl, rfl⟩

/-- `mutations_refine_forest` at `mixedTree`: the first list moves between its siblings, and its
removal frees what is below it and nothing else. -/
theorem mutations_refine_forest_mixedTree :
    (∃ tree', Answers (fun fuel => insertAfter fuel mixedTree ⟨0⟩ (some ⟨5⟩) ⟨1⟩) tree' ∧
      tree'.WellFormed ∧ mixedTree.Moved tree' ⟨0⟩ ⟨1⟩ (insertRight ⟨5⟩ ⟨1⟩)) ∧
    ∃ tree', Answers (fun fuel => remove fuel mixedTree ⟨1⟩) tree' ∧ tree'.WellFormed ∧
      mixedTree.Deleted tree' ⟨1⟩ ∧ ¬ tree'.Live ⟨4⟩ ∧ tree'.Live ⟨6⟩ := by
  have hroot : ¬ mixedTree.AncestorOrSelf ⟨1⟩ ⟨0⟩ := Tree.not_ancestorOrSelf (by decide) rfl
  obtain ⟨hattach, hremove⟩ := mutations_refine_forest mixedTree_wellFormed
  obtain ⟨tree', hanswers, hwf, hdeleted, hlive⟩ := hremove ⟨1⟩ rfl hroot
  have hbelow : mixedTree.AncestorOrSelf ⟨1⟩ ⟨4⟩ :=
    .tail (.single (rfl : mixedTree.Edge ⟨1⟩ ⟨3⟩)) (rfl : mixedTree.Edge ⟨3⟩ ⟨4⟩)
  have hbeside : ¬ mixedTree.AncestorOrSelf ⟨1⟩ ⟨6⟩ := by
    intro h
    rcases Relation.ReflTransGen.cases_tail h with heq | ⟨p, hp, hedge⟩
    · cases heq
    · cases hedge
      exact hroot hp
  exact ⟨(hattach ⟨0⟩ ⟨1⟩ rfl rfl hroot).2.2.2 ⟨5⟩ rfl (by decide), tree', hanswers, hwf, hdeleted,
    fun h => ((hlive ⟨4⟩).mp h).2 hbelow, (hlive ⟨6⟩).mpr ⟨rfl, hbeside⟩⟩

end Sexp
