import Sexp.Library.LinkedList
import Sexp.Library.Rose
import Mathlib.Data.Set.Basic
import Mathlib.Data.Fintype.Card

/-! # Ordered forests

A forest over a type `ι` of nodes: the live nodes carry a label, every node has at most one
parent, and the children of a node come in an order. The structure carries its own consistency:
children and parents agree, edges join live nodes, and no node lies below itself.

The edits are the ones a mutable document needs: `detach` cuts a node off its parent, `place` puts
a parentless node among the children of another, `setLabel` adds a live node or changes its label,
and `prune` deletes a set of nodes closed under parents and children. -/

namespace Sexp.Library

universe u v

/-- **An ordered forest** over nodes `ι` with labels `κ`. -/
structure OrderedForest (ι : Type u) (κ : Type v) where
  /-- The label of a live node; `none` for a node that is not live. -/
  label : ι → Option κ
  /-- The parent of a node, if it is attached. -/
  parent : ι → Option ι
  /-- The children of a node, in order. -/
  children : ι → List ι
  /-- No node is listed twice among the children of a node. -/
  nodup_children : ∀ p, (children p).Nodup
  /-- The children of a node are the nodes whose parent it is. -/
  mem_children : ∀ {p c}, c ∈ children p ↔ parent c = some p
  /-- A parent is live. -/
  live_parent : ∀ {p c}, parent c = some p → (label p).isSome
  /-- An attached node is live. -/
  live_child : ∀ {p c}, parent c = some p → (label c).isSome
  /-- No node is an ancestor of itself. -/
  acyclic : ∀ n, ¬ Relation.TransGen (fun p c => parent c = some p) n n

namespace OrderedForest

variable {ι : Type u} {κ : Type v}

/-- The parent relation, from parent to child. -/
def Edge (F : OrderedForest ι κ) (p c : ι) : Prop := F.parent c = some p

/-- **The subtree of a node**: the node itself and everything below it. The nodes `n` with
`m ∈ F.subtree n` are `m` and its ancestors. -/
def subtree (F : OrderedForest ι κ) (n : ι) : Set ι := {m | Relation.ReflTransGen F.Edge n m}

variable {F G : OrderedForest ι κ} {n m p c : ι}

theorem edge_iff : F.Edge p c ↔ F.parent c = some p := Iff.rfl

theorem edge_iff_mem_children : F.Edge p c ↔ c ∈ F.children p := F.mem_children.symm

theorem mem_subtree : m ∈ F.subtree n ↔ Relation.ReflTransGen F.Edge n m := Iff.rfl

/-- A node lies in its own subtree. -/
theorem self_mem_subtree : n ∈ F.subtree n := Relation.ReflTransGen.refl

/-- Two forests with the same labels, parents and children are equal. -/
theorem ext (hlabel : F.label = G.label) (hparent : F.parent = G.parent)
    (hchildren : F.children = G.children) : F = G := by
  cases F
  cases G
  simp only at hlabel hparent hchildren
  subst hlabel hparent hchildren
  rfl

/-- A node that is not live has no children. -/
theorem children_eq_nil_of_dead (h : F.label p = none) : F.children p = [] := by
  rw [List.eq_nil_iff_forall_not_mem]
  intro c hc
  have := F.live_parent (F.mem_children.mp hc)
  simp [h] at this

/-- A node that is not live has no parent. -/
theorem parent_eq_none_of_dead (h : F.label c = none) : F.parent c = none := by
  rw [Option.eq_none_iff_forall_ne_some]
  intro p hp
  have := F.live_child hp
  simp [h] at this

/-- The parent of a node lies in the subtree of every proper ancestor of the node. -/
theorem mem_subtree_of_parent (hc : c ∈ F.subtree n) (hne : c ≠ n)
    (hp : F.parent c = some p) : p ∈ F.subtree n := by
  rcases Relation.ReflTransGen.cases_tail hc with heq | ⟨q, hq, hedge⟩
  · exact absurd heq hne
  · rw [edge_iff, hp, Option.some.injEq] at hedge
    exact hedge ▸ hq

/-- A child lies in every subtree its parent lies in. -/
theorem mem_subtree_of_child (hp : p ∈ F.subtree n) (h : F.parent c = some p) :
    c ∈ F.subtree n :=
  Relation.ReflTransGen.tail hp h

/-- The parent of a node is not in its subtree. -/
theorem parent_notMem_subtree (h : F.parent c = some p) : p ∉ F.subtree c := fun hmem =>
  F.acyclic c (Relation.TransGen.tail' hmem h)

/-- No node is its own parent. -/
theorem parent_ne_self (h : F.parent c = some p) : p ≠ c := fun heq =>
  parent_notMem_subtree h (heq ▸ self_mem_subtree)

/-- The subtree of a node without children is the node. -/
theorem eq_of_mem_subtree_leaf (hn : F.children n = []) (hm : m ∈ F.subtree n) : m = n := by
  rcases Relation.ReflTransGen.cases_head hm with heq | ⟨c, hc, -⟩
  · exact heq.symm
  · rw [edge_iff_mem_children, hn] at hc
    simp at hc

/-- Everything in the subtree of a live node is live. -/
theorem live_of_mem_subtree (hn : (F.label n).isSome) (hm : m ∈ F.subtree n) :
    (F.label m).isSome := by
  rcases Relation.ReflTransGen.cases_tail hm with rfl | ⟨q, _, hedge⟩
  · exact hn
  · exact F.live_child hedge

/-! ## Termination along a forest -/

/-- Going down a finite forest ends. -/
theorem wellFounded_down [Finite ι] (F : OrderedForest ι κ) :
    WellFounded fun c p => c ∈ F.children p := by
  have : Std.Irrefl (Relation.TransGen fun c p => F.Edge p c) :=
    ⟨fun n h => F.acyclic n (Relation.transGen_swap.mp h)⟩
  have hwf := Finite.wellFounded_of_trans_of_irrefl (Relation.TransGen fun c p => F.Edge p c)
  refine Subrelation.wf (fun {c p} h => ?_) hwf
  exact .single (F.mem_children.mp h)

/-- Going up a finite forest ends. -/
theorem wellFounded_up [Finite ι] (F : OrderedForest ι κ) : WellFounded F.Edge := by
  have : Std.Irrefl (Relation.TransGen F.Edge) := ⟨fun n h => F.acyclic n h⟩
  have hwf := Finite.wellFounded_of_trans_of_irrefl (Relation.TransGen F.Edge)
  exact Subrelation.wf (fun {_ _} h => .single h) hwf

/-- Every node of a finite forest has a spanning tree. -/
theorem exists_spans [Finite ι] (F : OrderedForest ι κ) (n : ι) :
    ∃ r : Rose ι, r.root = n ∧ Spans F.children r :=
  Spans.exists_of_wellFounded F.wellFounded_down n

/-- The nodes of a spanning tree are the subtree of its root. -/
theorem mem_ids_iff_mem_subtree {r : Rose ι} (h : Spans F.children r) :
    m ∈ r.ids ↔ m ∈ F.subtree r.root := by
  rw [h.mem_ids_iff]
  exact iff_of_eq (congrArg (fun R => Relation.ReflTransGen R r.root m)
    (funext fun _ => funext fun _ => propext F.mem_children))

/-- Two ancestors of one node are comparable. -/
theorem subtree_total {a b : ι} (ha : m ∈ F.subtree a) (hb : m ∈ F.subtree b) :
    a ∈ F.subtree b ∨ b ∈ F.subtree a := by
  have hunique : Relator.RightUnique (Function.swap F.Edge) := by
    intro x y z hy hz
    simpa using hy.symm.trans hz
  have ha' := Relation.reflTransGen_swap.mpr ha
  have hb' := Relation.reflTransGen_swap.mpr hb
  rcases Relation.ReflTransGen.total_of_right_unique hunique ha' hb' with h | h
  · exact .inl (Relation.reflTransGen_swap.mp h)
  · exact .inr (Relation.reflTransGen_swap.mp h)

/-- Different children of one node have disjoint subtrees. -/
theorem children_disjoint {a b : ι} (ha : F.parent a = some p) (hb : F.parent b = some p)
    (hma : m ∈ F.subtree a) (hmb : m ∈ F.subtree b) : a = b := by
  by_contra hne
  rcases subtree_total hma hmb with h | h
  · exact parent_notMem_subtree hb (mem_subtree_of_parent h hne ha)
  · exact parent_notMem_subtree ha (mem_subtree_of_parent h (Ne.symm hne) hb)

/-- A spanning tree lists no node twice. -/
theorem nodup_ids {r : Rose ι} (h : Spans F.children r) : r.ids.Nodup := by
  induction h with
  | @node n ks hkids hspans ih =>
      have hparent : ∀ k ∈ ks, F.parent k.root = some n := fun k hk =>
        F.mem_children.mp (by rw [hkids]; exact List.mem_map_of_mem hk)
      rw [Rose.ids_node, List.nodup_cons]
      refine ⟨fun hmem => ?_, ?_⟩
      · -- a node is not in the subtree of one of its children
        obtain ⟨k, hk, hn⟩ := Rose.mem_idsAll.mp hmem
        exact parent_notMem_subtree (hparent k hk) ((mem_ids_iff_mem_subtree (hspans k hk)).mp hn)
      · have hroots : (ks.map Rose.root).Nodup := hkids ▸ F.nodup_children n
        -- the subtrees of different children are disjoint
        clear hkids
        induction ks with
        | nil => simp
        | cons k ks ihks =>
            rw [List.map_cons, List.nodup_cons] at hroots
            have hks : ∀ q ∈ ks, q ∈ k :: ks := fun q hq => List.mem_cons_of_mem k hq
            rw [Rose.idsAll_cons, List.nodup_append]
            refine ⟨ih k List.mem_cons_self, ?_, ?_⟩
            · exact ihks (fun q hq => hspans q (hks q hq)) (fun q hq => ih q (hks q hq))
                (fun q hq => hparent q (hks q hq)) hroots.2
            · rintro x hx y hy rfl
              obtain ⟨q, hq, hxq⟩ := Rose.mem_idsAll.mp hy
              have hmk := (mem_ids_iff_mem_subtree (hspans k List.mem_cons_self)).mp hx
              have hmq := (mem_ids_iff_mem_subtree (hspans q (hks q hq))).mp hxq
              have heq := children_disjoint (hparent k List.mem_cons_self)
                (hparent q (hks q hq)) hmk hmq
              exact hroots.1 (heq ▸ List.mem_map_of_mem hq)

/-! ## Siblings -/

section Siblings

variable [DecidableEq ι]

/-- A node and the siblings behind it. -/
def onward (F : OrderedForest ι κ) (c : ι) : List ι :=
  match F.parent c with
  | some p => (F.children p).dropWhile (· ≠ c)
  | none => [c]

/-- The rest of a child list, from one of the children on. -/
theorem onward_of_children {xs ys : List ι} (h : F.children p = xs ++ c :: ys) :
    F.onward c = c :: ys := by
  have hparent : F.parent c = some p := F.mem_children.mp (by simp [h])
  have hnodup := h ▸ F.nodup_children p
  have hxs : ∀ x ∈ xs, decide (x ≠ c) = true := fun x hx =>
    decide_eq_true (List.disjoint_of_nodup_append hnodup hx |> fun hne heq =>
      hne (heq ▸ List.mem_cons_self))
  simp only [onward, hparent, h]
  rw [List.dropWhile_append_of_pos hxs, List.dropWhile_cons_of_neg (by simp)]

/-- **Going on along siblings**: behind a node comes what follows its right neighbour. -/
theorem onward_eq_cons (F : OrderedForest ι κ) (c : ι) : ∃ ys, F.onward c = c :: ys ∧
    ys.head? = ((F.parent c).bind fun p => nextIn (F.children p) c) ∧
    ∀ d, ys.head? = some d → F.onward d = ys := by
  rcases hparent : F.parent c with _ | p
  · exact ⟨[], by simp [onward, hparent], rfl, by simp⟩
  · obtain ⟨xs, ys, hsplit, -, -, -, hnext⟩ :=
      exists_gap (F.nodup_children p) (F.mem_children.mpr hparent)
    refine ⟨ys, onward_of_children hsplit, hnext.symm, fun d hd => ?_⟩
    obtain ⟨zs, rfl⟩ := List.head?_eq_some_iff.mp hd
    have hnext : F.children p = (xs ++ [c]) ++ d :: zs := by simpa using hsplit
    exact onward_of_children hnext

end Siblings

/-! ## Edits -/

/-- A chain over a relation with one more edge `p → c` is a chain over the relation, or passes
through the new edge. -/
theorem transGen_of_insert_edge {R : ι → ι → Prop} {a b : ι}
    (h : Relation.TransGen (fun x y => R x y ∨ (x = p ∧ y = c)) a b) :
    Relation.TransGen R a b ∨
      (Relation.ReflTransGen R a p ∧ Relation.ReflTransGen R c b) := by
  induction h with
  | single h =>
      rcases h with h | ⟨rfl, rfl⟩
      · exact .inl (.single h)
      · exact .inr ⟨.refl, .refl⟩
  | tail _ h ih =>
      rcases h with h | ⟨rfl, rfl⟩
      · exact ih.imp (fun h' => h'.tail h) fun h' => ⟨h'.1, h'.2.tail h⟩
      · rcases ih with h' | h'
        · exact .inr ⟨h'.to_reflTransGen, .refl⟩
        · exact .inr ⟨h'.1, .refl⟩

section Edits

variable [DecidableEq ι]

/-- **Cut a node off its parent.** Its subtree goes with it. -/
def detach (F : OrderedForest ι κ) (c : ι) : OrderedForest ι κ where
  label := F.label
  parent m := if m = c then none else F.parent m
  children p := (F.children p).erase c
  nodup_children p := (F.nodup_children p).erase c
  mem_children {p m} := by
    rw [(F.nodup_children p).mem_erase_iff, F.mem_children]
    split <;> simp_all
  live_parent {p m} h := by
    split at h
    · simp at h
    · exact F.live_parent h
  live_child {p m} h := by
    split at h
    · simp at h
    · exact F.live_child h
  acyclic n h := by
    refine F.acyclic n (Relation.TransGen.mono (fun a b hab => ?_) n n h)
    split at hab
    · simp at hab
    · exact hab

/-- **Put a parentless node among the children of another**, between `xs` and `ys`. The new
parent must not lie in the subtree of the node. -/
def place (F : OrderedForest ι κ) (p c : ι) (xs ys : List ι) (hp : (F.label p).isSome)
    (hc : (F.label c).isSome) (hfree : F.parent c = none) (hbelow : p ∉ F.subtree c)
    (hchildren : F.children p = xs ++ ys) : OrderedForest ι κ where
  label := F.label
  parent m := if m = c then some p else F.parent m
  children q := if q = p then xs ++ c :: ys else F.children q
  nodup_children q := by
    split
    · have hnodup : (xs ++ ys).Nodup := hchildren ▸ F.nodup_children p
      have hnew : c ∉ xs ++ ys := fun h => by
        rw [← hchildren, F.mem_children, hfree] at h
        simp at h
      exact List.nodup_middle.mpr (List.nodup_cons.mpr ⟨hnew, hnodup⟩)
    · exact F.nodup_children q
  mem_children {q m} := by
    have hmem : m ∈ xs ++ c :: ys ↔ m = c ∨ m ∈ F.children p := by
      rw [hchildren]
      simp only [List.mem_append, List.mem_cons]
      tauto
    by_cases hq : q = p <;> by_cases hm : m = c
    · simp [hq, hm]
    · rw [if_pos hq, if_neg hm, hmem, F.mem_children, hq]
      simp [hm]
    · rw [if_neg hq, if_pos hm, hm, F.mem_children, hfree]
      simp [Ne.symm hq]
    · rw [if_neg hq, if_neg hm, F.mem_children]
  live_parent {q m} h := by
    split at h
    · rw [Option.some.injEq] at h
      exact h ▸ hp
    · exact F.live_parent h
  live_child {q m} h := by
    split at h
    · rename_i hm
      exact hm ▸ hc
    · exact F.live_child h
  acyclic n h := by
    have hsub : ∀ a b, (if b = c then some p else F.parent b) = some a →
        F.Edge a b ∨ (a = p ∧ b = c) := by
      intro a b hab
      split at hab
      · rename_i hb
        exact .inr ⟨(by simpa using hab.symm), hb⟩
      · exact .inl hab
    rcases transGen_of_insert_edge (Relation.TransGen.mono hsub n n h) with h | ⟨hnp, hcn⟩
    · exact F.acyclic n h
    · exact hbelow (hcn.trans hnp)

/-- The forest without live nodes. -/
def empty : OrderedForest ι κ where
  label _ := none
  parent _ := none
  children _ := []
  nodup_children _ := List.nodup_nil
  mem_children := by simp
  live_parent h := by simp at h
  live_child h := by simp at h
  acyclic n h := by
    obtain ⟨m, hm, -⟩ := Relation.TransGen.head'_iff.mp h
    simp at hm

/-- **Set the label of a node**, which makes it live if it was not. -/
def setLabel (F : OrderedForest ι κ) (n : ι) (k : κ) : OrderedForest ι κ where
  label m := if m = n then some k else F.label m
  parent := F.parent
  children := F.children
  nodup_children := F.nodup_children
  mem_children := F.mem_children
  live_parent {p m} h := by
    split
    · rfl
    · exact F.live_parent h
  live_child {p m} h := by
    split
    · rfl
    · exact F.live_child h
  acyclic := F.acyclic

end Edits

open Classical in
/-- **Delete a set of nodes** that is closed under parents and under children. -/
noncomputable def prune (F : OrderedForest ι κ) (S : Set ι)
    (hS : ∀ p c, F.parent c = some p → (p ∈ S ↔ c ∈ S)) : OrderedForest ι κ where
  label m := if m ∈ S then none else F.label m
  parent m := if m ∈ S then none else F.parent m
  children q := if q ∈ S then [] else F.children q
  nodup_children q := by
    split
    · exact List.nodup_nil
    · exact F.nodup_children q
  mem_children {q m} := by
    by_cases hq : q ∈ S <;> by_cases hm : m ∈ S
    · simp [hq, hm]
    · rw [if_pos hq, if_neg hm]
      simp only [List.not_mem_nil, false_iff]
      exact fun h => hm ((hS q m h).mp hq)
    · rw [if_neg hq, if_pos hm, F.mem_children]
      simp only [reduceCtorEq, iff_false]
      exact fun h => hq ((hS q m h).mpr hm)
    · rw [if_neg hq, if_neg hm, F.mem_children]
  live_parent {q m} h := by
    split at h
    · simp at h
    · rename_i hm
      rw [if_neg fun hq => hm ((hS q m h).mp hq)]
      exact F.live_parent h
  live_child {q m} h := by
    split at h
    · simp at h
    · rename_i hm
      rw [if_neg hm]
      exact F.live_child h
  acyclic n h := by
    refine F.acyclic n (Relation.TransGen.mono (fun a b hab => ?_) n n h)
    split at hab
    · simp at hab
    · exact hab

/-! ## Properties of the edits -/

/-- The subtree of a parentless node is closed under parents and under children. -/
theorem subtree_closed (hroot : F.parent n = none) (p c : ι) (h : F.parent c = some p) :
    p ∈ F.subtree n ↔ c ∈ F.subtree n := by
  refine ⟨fun hp => mem_subtree_of_child hp h, fun hc => mem_subtree_of_parent hc ?_ h⟩
  rintro rfl
  simp [hroot] at h

section Edits

variable [DecidableEq ι]

@[simp] theorem label_detach : (F.detach c).label = F.label := rfl

theorem parent_detach : (F.detach c).parent m = if m = c then none else F.parent m := rfl

@[simp] theorem children_detach : (F.detach c).children p = (F.children p).erase c := rfl

/-- A child list without a node has lost it altogether. -/
theorem erase_erase_children (F : OrderedForest ι κ) :
    ((F.children p).erase c).erase c = (F.children p).erase c :=
  List.erase_of_not_mem (F.nodup_children p).not_mem_erase

/-- A detached node is parentless. -/
@[simp] theorem parent_detach_self : (F.detach c).parent c = none := if_pos rfl

/-- Detaching a parentless node changes nothing. -/
theorem detach_eq_self (hfree : F.parent c = none) : F.detach c = F := by
  refine ext rfl (funext fun m => ?_) (funext fun q => ?_)
  · rw [parent_detach]
    split
    · rename_i hm
      rw [hm, hfree]
    · rfl
  · rw [children_detach, List.erase_of_not_mem]
    rw [F.mem_children, hfree]
    simp

/-- Detaching a node keeps its subtree. -/
theorem subtree_detach_self : (F.detach c).subtree c = F.subtree c := by
  ext m
  refine ⟨fun h => Relation.ReflTransGen.mono (fun a b hab => ?_) _ _ h, fun h => ?_⟩
  · rw [edge_iff, parent_detach] at hab
    split at hab
    · simp at hab
    · exact hab
  · induction h with
    | refl => exact self_mem_subtree
    | @tail a b hca hab ih =>
        have hbc : b ≠ c := by
          rintro rfl
          exact parent_notMem_subtree hab hca
        exact mem_subtree_of_child ih (by rwa [parent_detach, if_neg hbc])

/-- **Move a node** with its subtree under `p`, into the gap between `xs` and `ys` of the children
that `p` has without it. -/
def move (F : OrderedForest ι κ) (p c : ι) (xs ys : List ι) (hp : (F.label p).isSome)
    (hc : (F.label c).isSome) (hbelow : p ∉ F.subtree c)
    (hgap : (F.children p).erase c = xs ++ ys) : OrderedForest ι κ :=
  (F.detach c).place p c xs ys hp hc parent_detach_self
    (by rwa [subtree_detach_self]) hgap

/-- **Delete a node** with its subtree. -/
noncomputable def delete (F : OrderedForest ι κ) (n : ι) : OrderedForest ι κ :=
  (F.detach n).prune (F.subtree n) fun p c h => by
    rw [← subtree_detach_self]
    exact subtree_closed parent_detach_self p c h

section Move

variable {xs ys : List ι} {hp : (F.label p).isSome} {hc : (F.label c).isSome}
  {hbelow : p ∉ F.subtree c} {hgap : (F.children p).erase c = xs ++ ys}

@[simp] theorem label_move : (F.move p c xs ys hp hc hbelow hgap).label = F.label := rfl

/-- After a move the node moved has its new parent, and the others keep theirs. -/
theorem parent_move : (F.move p c xs ys hp hc hbelow hgap).parent m =
    if m = c then some p else F.parent m := by
  change (if m = c then some p else if m = c then none else F.parent m) = _
  split <;> rfl

/-- After a move the new parent has the node in the gap, and the others lose it. -/
theorem children_move {q : ι} : (F.move p c xs ys hp hc hbelow hgap).children q =
    if q = p then xs ++ c :: ys else (F.children q).erase c := rfl

/-- Moving a node that has been detached before is moving the node. -/
theorem move_detach {ys' : List ι} (hys : ys' = ys) (hp : (F.label p).isSome)
    (hc : (F.label c).isSome) (hbelow : p ∉ F.subtree c)
    (hgap : (F.children p).erase c = xs ++ ys) (hp' : ((F.detach c).label p).isSome)
    (hc' : ((F.detach c).label c).isSome) (hbelow' : p ∉ (F.detach c).subtree c)
    (hgap' : ((F.detach c).children p).erase c = xs ++ ys') :
    (F.detach c).move p c xs ys' hp' hc' hbelow' hgap' = F.move p c xs ys hp hc hbelow hgap := by
  subst hys
  refine ext rfl (funext fun m => ?_) (funext fun q => ?_)
  · rw [parent_move, parent_move, parent_detach]
    split <;> rfl
  · rw [children_move, children_move, children_detach, erase_erase_children]

end Move

/-- A node is live after a deletion iff it was live and outside the deleted subtree. -/
theorem label_delete_isSome :
    ((F.delete n).label m).isSome ↔ (F.label m).isSome ∧ m ∉ F.subtree n := by
  simp only [delete, prune, label_detach]
  split <;> simp_all

end Edits

end OrderedForest

end Sexp.Library
