import Sexp.Core.AnyTree
import Sexp.Core.DepthFirst
import Sexp.Library.ForestValue

/-! # Where a node goes is all that matters

Attaching a node makes of a well-formed tree the one in which the node is at its new place: two
operations that put it at the same place give the same links, and so does moving it away and back.
Of several moves of a node the last one counts (`last_attachment_wins`), and moves of different
nodes to different parents commute, unless they would make a cycle together (`attachments_commute`).
-/

namespace Sexp

open Library (OrderedForest Answers insertRight)

variable {tree tree' tree₁ tree₂ : Tree} {F G : OrderedForest NodeId NodeType}
  {parent child : NodeId} {op op' : Attachment} {n : Node} {l : List NodeId}

/-- **The same tree for every reader**: all nodes are the same, field by field, and so are the free
list, the root, the version, the flag of a bare tree and the cache. -/
structure Tree.Same (tree tree' : Tree) : Prop where
  /-- The nodes. -/
  get_eq : ∀ id, tree'.nodes.get id = tree.nodes.get id
  /-- The free list. -/
  free_eq : tree'.nodes.free = tree.nodes.free
  /-- The number of slots. -/
  slots_eq : tree'.nodes.slots.length = tree.nodes.slots.length
  /-- All else. -/
  frame : tree.SameFrame tree'

/-- The forest determines the nodes. -/
theorem Tree.Represents.get_eq (hF : tree.Represents F) (hF' : tree'.Represents F) (id : NodeId) :
    tree'.nodes.get id = tree.nodes.get id := by
  rw [hF id, hF' id]

/-- What has moved in a tree has moved in its forest. -/
theorem Tree.Moved.moves {put : List NodeId → List NodeId} (h : tree.Moved tree' parent child put)
    (hF : tree.Represents F) : ∃ G, tree'.Represents G ∧ F.Moves G parent child put := by
  obtain ⟨F', G, hF', hG, hlabel, hparent, hchildren⟩ := h
  obtain rfl := hF.unique hF'
  exact ⟨G, hG, hlabel, hparent, hchildren⟩

/-- Two attachments that return have relinked the tree alike, apart from the nodes. -/
theorem Tree.Relinked.same (h : tree.Relinked tree₁) (h' : tree.Relinked tree₂)
    (hget : ∀ id, tree₂.nodes.get id = tree₁.nodes.get id) : tree₁.Same tree₂ := by
  refine ⟨hget, h'.free_eq.trans h.free_eq.symm, h'.slots_eq.trans h.slots_eq.symm, ?_⟩
  rw [Tree.SameFrame, h'.frame, h.frame]

/-- An attachment moves its child in the forest. -/
theorem Attachment.run_moves (op : Attachment) (hcons : tree.Consistent) (hF : tree.Represents F)
    (hp : tree.Live parent) (hc : tree.Live child) (hbelow : parent ∉ F.subtree child)
    (hfits : op.Fits tree parent child) :
    ∃ tree' G, Answers (fun fuel => op.run fuel tree parent child) tree' ∧ tree'.Consistent ∧
      tree'.Represents G ∧ F.Moves G parent child (op.put child) ∧ tree.Relinked tree' ∧
      ∀ m, tree.Live m → tree'.Live m := by
  rw [← hF.ancestorOrSelf_iff] at hbelow
  obtain ⟨tree', hrun, hcons', hmoved⟩ := op.run_consistent hcons hp hc hbelow hfits
  obtain ⟨G, hG, hmoves⟩ := hmoved.moves hF
  obtain ⟨fuel, hfuel⟩ := hrun.exists_fuel
  refine ⟨tree', G, hrun, hcons', hG, hmoves, run_relinked hfuel, fun m hm => ?_⟩
  rw [hG.live_iff, hmoves.label, ← hF.live_iff]
  exact hm

/-- **Operations that put the child at the same place** give the same tree. -/
theorem Attachment.run_same (op op' : Attachment) (hwf : tree.WellFormed) (hF : tree.Represents F)
    (hp : tree.Live parent) (hc : tree.Live child) (hbelow : ¬ tree.AncestorOrSelf child parent)
    (hfits : op.Fits tree parent child) (hfits' : op'.Fits tree parent child)
    (hput : op.put child ((F.children parent).erase child) =
      op'.put child ((F.children parent).erase child)) :
    ∃ tree₁ tree₂, Answers (fun fuel => op.run fuel tree parent child) tree₁ ∧
      Answers (fun fuel => op'.run fuel tree parent child) tree₂ ∧ tree₁.Same tree₂ := by
  rw [hF.ancestorOrSelf_iff] at hbelow
  obtain ⟨tree₁, G, hrun, -, hG, hmoves, hlinked, -⟩ :=
    op.run_moves hwf.toConsistent hF hp hc hbelow hfits
  obtain ⟨tree₂, H, hrun', -, hH, hmoves', hlinked', -⟩ :=
    op'.run_moves hwf.toConsistent hF hp hc hbelow hfits'
  obtain rfl := (hmoves.congr hput).unique hmoves'
  exact ⟨tree₁, tree₂, hrun, hrun', hlinked.same hlinked' (hG.get_eq hH)⟩

/-- **The attaching operations agree where they overlap.** On every well-formed tree, for a child
that is neither the parent nor above it: `insert_after` without a sibling gives the tree that
`prepend` gives; behind the last of the other children it gives the tree that `append` gives; and
when there are no other children, `append` and `prepend` give the same tree. -/
theorem attachments_agree (hwf : tree.WellFormed) (hn : tree.nodes.get parent = some n)
    (hl : tree.IsChildList parent n l) (hc : tree.Live child)
    (hbelow : ¬ tree.AncestorOrSelf child parent) :
    (∃ tree₁ tree₂, Answers (fun fuel => insertAfter fuel tree parent none child) tree₁ ∧
      Answers (fun fuel => prepend fuel tree parent child) tree₂ ∧ tree₁.Same tree₂) ∧
    (∀ sibling, (l.erase child).getLast? = some sibling →
      ∃ tree₁ tree₂, Answers (fun fuel => insertAfter fuel tree parent (some sibling) child) tree₁ ∧
        Answers (fun fuel => append fuel tree parent child) tree₂ ∧ tree₁.Same tree₂) ∧
    (l.erase child = [] →
      ∃ tree₁ tree₂, Answers (fun fuel => append fuel tree parent child) tree₁ ∧
        Answers (fun fuel => prepend fuel tree parent child) tree₂ ∧ tree₁.Same tree₂) := by
  obtain ⟨F, hF⟩ := hwf.exists_represents
  have hp : tree.Live parent := by rw [Tree.Live, hn]; rfl
  have hchildren : F.children parent = l := (hF.isChildList hn).forward.unique hl.forward
  have hnodup : l.Nodup := hchildren ▸ F.nodup_children parent
  refine ⟨?_, fun sibling hlast => ?_, fun hnil => ?_⟩
  · exact Attachment.run_same (.insertAfter none) .prepend hwf hF hp hc hbelow trivial
      trivial rfl
  · obtain ⟨xs, hxs⟩ := List.getLast?_eq_some_iff.mp hlast
    have hsplit : (xs ++ [sibling]).Nodup := hxs ▸ hnodup.erase child
    have hsibling : sibling ∉ xs := fun hmem =>
      (List.nodup_append.mp hsplit).2.2 sibling hmem sibling List.mem_cons_self rfl
    have hmem : sibling ∈ l.erase child := by simp [hxs]
    rw [hnodup.mem_erase_iff, ← hchildren, F.mem_children, ← hF.parentOf_eq] at hmem
    refine Attachment.run_same (.insertAfter (some sibling)) .append hwf hF hp hc hbelow
      ⟨hmem.2, hmem.1⟩ trivial ?_
    rw [hchildren, hxs]
    change insertRight sibling child (xs ++ [sibling]) = xs ++ [sibling] ++ [child]
    rw [Library.insertRight_append hsibling, List.append_assoc]
    rfl
  · refine Attachment.run_same .append .prepend hwf hF hp hc hbelow trivial trivial ?_
    rw [hchildren, hnil]
    rfl

/-- `attachments_agree` at the two lists of `threeNodes`. -/
theorem attachments_agree_threeNodes :
    ∃ tree₁ tree₂, Answers (fun fuel => insertAfter fuel threeNodes ⟨0⟩ none ⟨2⟩) tree₁ ∧
      Answers (fun fuel => prepend fuel threeNodes ⟨0⟩ ⟨2⟩) tree₂ ∧ tree₁.Same tree₂ := by
  obtain ⟨l, hl⟩ := threeNodes_wellFormed.children ⟨0⟩ _ rfl
  exact (attachments_agree threeNodes_wellFormed rfl hl (rfl : threeNodes.Live ⟨2⟩)
    (Tree.not_ancestorOrSelf (by decide) rfl)).1

/-! ## Moving back -/

/-- Taking a node out again from where it has been put leaves the other nodes. -/
theorem Attachment.erase_put (op : Attachment) {l : List NodeId} (hc : child ∉ l) :
    (op.put child l).erase child = l := by
  match op with
  | append =>
      change (l ++ [child]).erase child = l
      rw [List.erase_append_right _ hc, List.erase_cons_head, List.append_nil]
  | prepend => exact List.erase_cons_head ..
  | insertAfter none => exact List.erase_cons_head ..
  | insertAfter (some sibling) =>
      change (insertRight sibling child l).erase child = l
      induction l with
      | nil => rfl
      | cons x l ih =>
          rw [List.mem_cons, not_or] at hc
          have hx : (x == child) = false := by simpa using Ne.symm hc.1
          rw [insertRight]
          split
          · rw [List.erase_cons_tail (by simp [hx]), List.erase_cons_head]
          · rw [List.erase_cons_tail (by simp [hx]), ih hc.2]

/-- Putting a node back behind the last node in front of it. -/
theorem put_getLast {xs ys : List NodeId} (hnodup : (xs ++ child :: ys).Nodup) :
    (Attachment.insertAfter xs.getLast?).put child (xs ++ ys) = xs ++ child :: ys := by
  rcases List.eq_nil_or_concat xs with rfl | ⟨zs, sibling, rfl⟩
  · rfl
  · have hsibling : sibling ∉ zs := by
      intro hmem
      rw [List.concat_eq_append, List.append_assoc] at hnodup
      exact (List.nodup_append.mp hnodup).2.2 sibling hmem sibling (by simp) rfl
    rw [List.concat_eq_append, List.getLast?_concat, Attachment.put, List.append_assoc,
      List.singleton_append, Library.insertRight_append hsibling]
    simp

/-- **Moving a node away can be undone.** A child that stands between `xs` and `ys` and is attached
elsewhere, by any of the operations, and then inserted again behind the last of `xs`, is back: the
tree is the same, and only the version shows that something has happened. -/
theorem attach_undone {q : NodeId} {xs ys : List NodeId} (hwf : tree.WellFormed)
    (hn : tree.nodes.get q = some n) (hl : tree.IsChildList q n (xs ++ child :: ys))
    (hp : tree.Live parent) (hbelow : ¬ tree.AncestorOrSelf child parent)
    (hfits : op.Fits tree parent child) :
    ∃ tree₁ tree₂, Answers (fun fuel => op.run fuel tree parent child) tree₁ ∧
      Answers (fun fuel => insertAfter fuel tree₁ q xs.getLast? child) tree₂ ∧
      ({ tree with version := tree.version + 2 } : Tree).Same tree₂ := by
  obtain ⟨F, hF⟩ := hwf.exists_represents
  have hchildren : F.children q = xs ++ child :: ys := (hF.isChildList hn).forward.unique hl.forward
  have hnodup := hchildren ▸ F.nodup_children q
  have hq : F.parent child = some q := by
    rw [← F.mem_children, hchildren]
    simp
  have hc : tree.Live child := hl.live child (by simp)
  rw [hF.ancestorOrSelf_iff] at hbelow
  obtain ⟨tree₁, G, hrun, hcons, hG, hmoves, hlinked, hlive⟩ :=
    op.run_moves hwf.toConsistent hF hp hc hbelow hfits
  -- the second operation is sane, too
  have hfits₁ : (Attachment.insertAfter xs.getLast?).Fits tree₁ q child := by
    rcases hlast : xs.getLast? with _ | sibling
    · trivial
    · have hmem : sibling ∈ xs := List.mem_of_getLast? hlast
      have hne : sibling ≠ child := fun heq =>
        (List.nodup_append.mp hnodup).2.2 sibling hmem child List.mem_cons_self heq
      refine ⟨?_, hne⟩
      rw [hG.parentOf_eq, hmoves.parent, if_neg hne, ← F.mem_children, hchildren]
      exact List.mem_append_left _ hmem
  have hq₁ := hlive q (hF.live_iff.mpr (F.live_parent hq))
  obtain ⟨tree₂, H, hrun', -, hH, hmoves', hlinked', -⟩ :=
    (Attachment.insertAfter xs.getLast?).run_moves hcons hG hq₁ (hlive child hc)
      (fun hmem => OrderedForest.parent_notMem_subtree hq (hmoves.subtree_subset hmem)) hfits₁
  obtain rfl : H = F := hmoves.back hmoves' hq hchildren
    (op.erase_put (F.nodup_children parent).not_mem_erase) (put_getLast hnodup)
  refine ⟨tree₁, tree₂, hrun, hrun', hF.get_eq hH, hlinked'.free_eq.trans hlinked.free_eq,
    hlinked'.slots_eq.trans hlinked.slots_eq, ?_⟩
  rw [Tree.SameFrame, hlinked'.frame, hlinked.frame]
  simp [UInt64.add_assoc]

/-- `attach_undone` at the atom `c` of `mixedTree`, which goes behind `b` and back between its
siblings. -/
theorem attach_undone_mixedTree :
    ∃ tree₁ tree₂, Answers (fun fuel => insertAfter fuel mixedTree ⟨3⟩ (some ⟨4⟩) ⟨5⟩) tree₁ ∧
      Answers (fun fuel => insertAfter fuel tree₁ ⟨0⟩ (some ⟨1⟩) ⟨5⟩) tree₂ ∧
      ({ mixedTree with version := 2 } : Tree).Same tree₂ := by
  obtain ⟨l, hl⟩ := mixedTree_wellFormed.children ⟨0⟩ _ rfl
  have hwalk : Library.Walk mixedTree.nextOf (some ⟨1⟩) [⟨1⟩, ⟨5⟩, ⟨6⟩] := ⟨rfl, rfl, rfl, rfl⟩
  obtain rfl : l = [⟨1⟩] ++ ⟨5⟩ :: [⟨6⟩] := hl.forward.unique hwalk
  -- the atom has nothing below it
  have hbelow : ¬ mixedTree.AncestorOrSelf ⟨5⟩ ⟨3⟩ := fun h =>
    absurd (mixedTree_wellFormed.toConsistent.eq_of_childless rfl rfl h) (by decide)
  have hfits : (Attachment.insertAfter (some ⟨4⟩)).Fits mixedTree ⟨3⟩ ⟨5⟩ := ⟨rfl, by decide⟩
  exact attach_undone mixedTree_wellFormed rfl hl (rfl : mixedTree.Live ⟨3⟩) hbelow hfits

/-! ## Two moves -/

/-- A node is put at the same place whether or not another one is there, which is not the sibling
that it is put behind. -/
theorem Attachment.put_erase (op : Attachment) {d : NodeId} (hne : child ≠ d)
    (hop : op ≠ .insertAfter (some d)) (l : List NodeId) :
    (op.put child l).erase d = op.put child (l.erase d) := by
  have hcons : ∀ l : List NodeId, (child :: l).erase d = child :: l.erase d := fun l =>
    List.erase_cons_tail (by simpa using hne)
  match op with
  | append =>
      change (l ++ [child]).erase d = l.erase d ++ [child]
      by_cases hd : d ∈ l
      · exact List.erase_append_left _ hd
      · rw [List.erase_append_right _ hd, List.erase_of_not_mem hd,
          List.erase_of_not_mem (by simpa using hne.symm)]
  | prepend => exact hcons l
  | insertAfter none => exact hcons l
  | insertAfter (some sibling) =>
      have hsibling : sibling ≠ d := fun heq => hop (by rw [heq])
      change (insertRight sibling child l).erase d = insertRight sibling child (l.erase d)
      induction l with
      | nil => rfl
      | cons x l ih =>
          by_cases hx : x = sibling
          · have hxd : (x == d) = false := by simpa [hx] using hsibling
            rw [insertRight, if_pos hx, List.erase_cons_tail (by simp [hxd]), hcons,
              List.erase_cons_tail (by simp [hxd]), insertRight, if_pos hx]
          · rw [insertRight, if_neg hx]
            by_cases hxd : x = d
            · rw [hxd, List.erase_cons_head, List.erase_cons_head]
            · rw [List.erase_cons_tail (by simpa using hxd),
                List.erase_cons_tail (by simpa using hxd), ih, insertRight, if_neg hx]

/-- What an operation expects of its sibling, after another node has moved. -/
theorem Attachment.Fits.of_moves {q d : NodeId} {put : List NodeId → List NodeId}
    (hfits : op.Fits tree q d) (hF : tree.Represents F) (hG : tree'.Represents G)
    (hmoves : F.Moves G parent child put) (hop : op ≠ .insertAfter (some child)) :
    op.Fits tree' q d := by
  match op with
  | append | prepend | insertAfter none => trivial
  | insertAfter (some sibling) =>
      have hne : sibling ≠ child := fun heq => hop (by rw [heq])
      refine ⟨?_, hfits.2⟩
      rw [hG.parentOf_eq, hmoves.parent, if_neg hne, ← hF.parentOf_eq]
      exact hfits.1

/-- **The last attachment of a node wins.** On every well-formed tree, attaching a child somewhere
and then somewhere else gives the tree that the second operation alone gives; only the version shows
that there have been two. -/
theorem last_attachment_wins {q : NodeId} (hwf : tree.WellFormed) (hp : tree.Live parent)
    (hq : tree.Live q) (hc : tree.Live child) (hbelow : ¬ tree.AncestorOrSelf child parent)
    (hbelow' : ¬ tree.AncestorOrSelf child q) (hfits : op.Fits tree parent child)
    (hfits' : op'.Fits tree q child) :
    ∃ tree₁ tree₂ tree₃, Answers (fun fuel => op.run fuel tree parent child) tree₁ ∧
      Answers (fun fuel => op'.run fuel tree₁ q child) tree₂ ∧
      Answers (fun fuel => op'.run fuel tree q child) tree₃ ∧
      ({ tree₃ with version := tree₃.version + 1 } : Tree).Same tree₂ := by
  obtain ⟨F, hF⟩ := hwf.exists_represents
  rw [hF.ancestorOrSelf_iff] at hbelow hbelow'
  obtain ⟨tree₁, G, hrun, hcons, hG, hmoves, hlinked, hlive⟩ :=
    op.run_moves hwf.toConsistent hF hp hc hbelow hfits
  obtain ⟨tree₃, K, hrun₃, -, hK, hmoves₃, hlinked₃, -⟩ :=
    op'.run_moves hwf.toConsistent hF hq hc hbelow' hfits'
  have hfits₁ : op'.Fits tree₁ q child := by
    match op' with
    | .append | .prepend | .insertAfter none => trivial
    | .insertAfter (some sibling) =>
        exact hfits'.of_moves hF hG hmoves fun heq => hfits'.2 (by simpa using heq)
  obtain ⟨tree₂, H, hrun', -, hH, hmoves', hlinked', -⟩ := op'.run_moves hcons hG (hlive q hq)
    (hlive child hc) (fun hmem => hbelow' (hmoves.subtree_subset hmem)) hfits₁
  obtain rfl : H = K := (hmoves.last hmoves'
    (op.erase_put (F.nodup_children parent).not_mem_erase)).unique hmoves₃
  refine ⟨tree₁, tree₂, tree₃, hrun, hrun', hrun₃, hK.get_eq hH, ?_, ?_, ?_⟩
  · exact (hlinked'.free_eq.trans hlinked.free_eq).trans hlinked₃.free_eq.symm
  · exact (hlinked'.slots_eq.trans hlinked.slots_eq).trans hlinked₃.slots_eq.symm
  · rw [Tree.SameFrame, hlinked'.frame, hlinked.frame, hlinked₃.frame]

/-- `last_attachment_wins` at the atom `c` of `mixedTree`, which goes behind `b` and then in front
of `a`. -/
theorem last_attachment_wins_mixedTree :
    ∃ tree₁ tree₂ tree₃,
      Answers (fun fuel => insertAfter fuel mixedTree ⟨3⟩ (some ⟨4⟩) ⟨5⟩) tree₁ ∧
      Answers (fun fuel => prepend fuel tree₁ ⟨1⟩ ⟨5⟩) tree₂ ∧
      Answers (fun fuel => prepend fuel mixedTree ⟨1⟩ ⟨5⟩) tree₃ ∧
      ({ tree₃ with version := tree₃.version + 1 } : Tree).Same tree₂ := by
  -- the atom has nothing below it
  have hbelow : ∀ p, p ≠ ⟨5⟩ → ¬ mixedTree.AncestorOrSelf ⟨5⟩ p := fun p hne h =>
    hne (mixedTree_wellFormed.toConsistent.eq_of_childless rfl rfl h)
  have hfits : (Attachment.insertAfter (some ⟨4⟩)).Fits mixedTree ⟨3⟩ ⟨5⟩ := ⟨rfl, by decide⟩
  have hfits' : Attachment.prepend.Fits mixedTree ⟨1⟩ ⟨5⟩ := trivial
  exact last_attachment_wins mixedTree_wellFormed (rfl : mixedTree.Live ⟨3⟩)
    (rfl : mixedTree.Live ⟨1⟩) (rfl : mixedTree.Live ⟨5⟩) (hbelow ⟨3⟩ (by decide))
    (hbelow ⟨1⟩ (by decide)) hfits hfits'

/-- Relinking a tree twice leaves all but the nodes and the version. -/
theorem Tree.Relinked.same_twice {tree₁' tree₂' : Tree} (h : tree.Relinked tree₁)
    (hthen : tree₁.Relinked tree₂) (h' : tree.Relinked tree₁') (hthen' : tree₁'.Relinked tree₂')
    (hget : ∀ id, tree₂'.nodes.get id = tree₂.nodes.get id) : tree₂.Same tree₂' := by
  refine ⟨hget, ?_, ?_, ?_⟩
  · rw [hthen'.free_eq, h'.free_eq, hthen.free_eq, h.free_eq]
  · rw [hthen'.slots_eq, h'.slots_eq, hthen.slots_eq, h.slots_eq]
  · rw [Tree.SameFrame, hthen'.frame, h'.frame, hthen.frame, h.frame]

/-- **Attachments commute.** On every well-formed tree, attaching two different children to two
different parents gives the same tree in either order, when neither operation puts its child behind
the other's, no child is its parent or above it, and the two moves together make no cycle. -/
theorem attachments_commute {q d : NodeId} (hwf : tree.WellFormed) (hp : tree.Live parent)
    (hc : tree.Live child) (hq : tree.Live q) (hd : tree.Live d) (hparents : parent ≠ q)
    (hnodes : child ≠ d) (hbelow : ¬ tree.AncestorOrSelf child parent)
    (hbelow' : ¬ tree.AncestorOrSelf d q)
    (hcycle : ¬ (tree.AncestorOrSelf child q ∧ tree.AncestorOrSelf d parent))
    (hfits : op.Fits tree parent child) (hfits' : op'.Fits tree q d)
    (hop : op ≠ .insertAfter (some d)) (hop' : op' ≠ .insertAfter (some child)) :
    ∃ tree₁ tree₂ tree₁' tree₂', Answers (fun fuel => op.run fuel tree parent child) tree₁ ∧
      Answers (fun fuel => op'.run fuel tree₁ q d) tree₂ ∧
      Answers (fun fuel => op'.run fuel tree q d) tree₁' ∧
      Answers (fun fuel => op.run fuel tree₁' parent child) tree₂' ∧ tree₂.Same tree₂' := by
  obtain ⟨F, hF⟩ := hwf.exists_represents
  simp only [hF.ancestorOrSelf_iff] at hbelow hbelow' hcycle
  obtain ⟨tree₁, G, hrun, hcons, hG, hmoves, hlinked, hlive⟩ :=
    op.run_moves hwf.toConsistent hF hp hc hbelow hfits
  obtain ⟨tree₁', G', hrun', hcons', hG', hmoves', hlinked', hlive'⟩ :=
    op'.run_moves hwf.toConsistent hF hq hd hbelow' hfits'
  -- what the first move carries below the second child, or the second below the first, is no cycle
  have hbelow₁ : q ∉ G.subtree d := fun hmem =>
    (hmoves.subtree_cases hmem).elim hbelow' fun h => hcycle h.symm
  have hbelow₁' : parent ∉ G'.subtree child := fun hmem =>
    (hmoves'.subtree_cases hmem).elim hbelow hcycle
  obtain ⟨tree₂, H, hthen, -, hH, hmoves₂, hlinked₂, -⟩ := op'.run_moves hcons hG (hlive q hq)
    (hlive d hd) hbelow₁ (hfits'.of_moves hF hG hmoves hop')
  obtain ⟨tree₂', H', hthen', -, hH', hmoves₂', hlinked₂', -⟩ := op.run_moves hcons' hG'
    (hlive' parent hp) (hlive' child hc) hbelow₁' (hfits.of_moves hF hG' hmoves' hop)
  obtain rfl : H' = H := hmoves.commute hmoves₂ hmoves' hmoves₂' hparents hnodes
    (op.put_erase hnodes hop _) (op'.put_erase hnodes.symm hop' _)
  exact ⟨tree₁, tree₂, tree₁', tree₂', hrun, hthen, hrun', hthen',
    hlinked.same_twice hlinked₂ hlinked' hlinked₂' (hH.get_eq hH')⟩

/-- `attachments_commute` at `threeNodes`: the atom goes below the other list, which goes below the
root. -/
theorem attachments_commute_threeNodes :
    ∃ tree₁ tree₂ tree₁' tree₂', Answers (fun fuel => append fuel threeNodes ⟨2⟩ ⟨1⟩) tree₁ ∧
      Answers (fun fuel => prepend fuel tree₁ ⟨0⟩ ⟨2⟩) tree₂ ∧
      Answers (fun fuel => prepend fuel threeNodes ⟨0⟩ ⟨2⟩) tree₁' ∧
      Answers (fun fuel => append fuel tree₁' ⟨2⟩ ⟨1⟩) tree₂' ∧ tree₂.Same tree₂' := by
  have hfits : Attachment.append.Fits threeNodes ⟨2⟩ ⟨1⟩ := trivial
  have hfits' : Attachment.prepend.Fits threeNodes ⟨0⟩ ⟨2⟩ := trivial
  exact attachments_commute threeNodes_wellFormed (rfl : threeNodes.Live ⟨2⟩)
    (rfl : threeNodes.Live ⟨1⟩) (rfl : threeNodes.Live ⟨0⟩) (rfl : threeNodes.Live ⟨2⟩) (by decide)
    (by decide) (Tree.not_ancestorOrSelf (by decide) rfl) (Tree.not_ancestorOrSelf (by decide) rfl)
    (fun h => Tree.not_ancestorOrSelf (by decide) rfl h.1) hfits hfits' (by decide) (by decide)

end Sexp
