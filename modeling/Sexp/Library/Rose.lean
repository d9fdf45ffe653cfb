import Mathlib.Data.List.Nodup
import Mathlib.Logic.Relation
import Mathlib.Tactic.Common

/-! # Rose trees spanned by a child function

A rose tree has a root and a list of subtrees. When every node `n` of some graph has a list
`children n` of children, the rose tree `r` *spans* the part below its root if the subtrees of
every node of `r` are, in order, the trees of its children (`Spans`). Loops that walk such a graph
with an explicit stack are then understood by induction on `Spans`. -/

namespace Sexp.Library

universe u v w

/-- **Rose trees**: a root and the list of its subtrees, in order. -/
inductive Rose (ι : Type u) : Type u where
  /-- The tree with this root and these subtrees. -/
  | node (root : ι) (kids : List (Rose ι))

namespace Rose

variable {ι : Type u}

/-- The root of a rose tree. -/
def root : Rose ι → ι
  | .node n _ => n

/-- The subtrees below the root of a rose tree. -/
def kids : Rose ι → List (Rose ι)
  | .node _ ks => ks

@[simp] theorem root_node (n : ι) (ks : List (Rose ι)) : (node n ks).root = n := rfl

@[simp] theorem kids_node (n : ι) (ks : List (Rose ι)) : (node n ks).kids = ks := rfl

mutual

/-- The nodes of a rose tree in depth-first pre-order. -/
def ids : Rose ι → List ι
  | .node n ks => n :: idsAll ks

/-- The nodes of a list of rose trees in depth-first pre-order. -/
def idsAll : List (Rose ι) → List ι
  | [] => []
  | k :: ks => k.ids ++ idsAll ks

end

@[simp] theorem ids_node (n : ι) (ks : List (Rose ι)) : (node n ks).ids = n :: idsAll ks := by
  rw [ids]

@[simp] theorem idsAll_nil : idsAll ([] : List (Rose ι)) = [] := by
  rw [idsAll]

@[simp] theorem idsAll_cons (k : Rose ι) (ks : List (Rose ι)) :
    idsAll (k :: ks) = k.ids ++ idsAll ks := by
  rw [idsAll]

@[simp] theorem idsAll_append (ks ks' : List (Rose ι)) :
    idsAll (ks ++ ks') = idsAll ks ++ idsAll ks' := by
  induction ks with
  | nil => simp
  | cons k ks ih => simp [ih]

mutual

/-- The rose tree of the images of the nodes: two rose trees with the same image have the same
shape. -/
def map {β : Type v} (f : ι → β) : Rose ι → Rose β
  | .node n ks => .node (f n) (mapAll f ks)

/-- The rose trees of the images of the nodes. -/
def mapAll {β : Type v} (f : ι → β) : List (Rose ι) → List (Rose β)
  | [] => []
  | k :: ks => k.map f :: mapAll f ks

end

section Map

variable {β : Type v} {f g : ι → β}

@[simp] theorem map_node (n : ι) (ks : List (Rose ι)) :
    (node n ks).map f = .node (f n) (mapAll f ks) := by
  rw [map]

@[simp] theorem mapAll_nil : mapAll f [] = [] := by
  rw [mapAll]

@[simp] theorem mapAll_cons (k : Rose ι) (ks : List (Rose ι)) :
    mapAll f (k :: ks) = k.map f :: mapAll f ks := by
  rw [mapAll]

@[simp] theorem mapAll_append (ks ks' : List (Rose ι)) :
    mapAll f (ks ++ ks') = mapAll f ks ++ mapAll f ks' := by
  induction ks with
  | nil => simp
  | cons k ks ih => simp [ih]

/-- The images of trees, one by one. -/
theorem mapAll_eq_map (ks : List (Rose ι)) : mapAll f ks = ks.map (Rose.map f) := by
  induction ks with
  | nil => simp
  | cons k ks ih => simp [ih]

mutual

/-- The nodes of the image of a tree are the images of its nodes. -/
theorem ids_map (r : Rose ι) : (r.map f).ids = r.ids.map f := by
  match r with
  | .node n ks => rw [map_node, ids_node, ids_node, List.map_cons, idsAll_mapAll ks]

/-- The nodes of the images of trees are the images of their nodes. -/
theorem idsAll_mapAll (ks : List (Rose ι)) : idsAll (mapAll f ks) = (idsAll ks).map f := by
  match ks with
  | [] => simp
  | k :: ks => rw [mapAll_cons, idsAll_cons, idsAll_cons, List.map_append, ids_map k,
      idsAll_mapAll ks]

end

mutual

/-- The image of a tree depends on the images of its own nodes only. -/
theorem map_congr (r : Rose ι) (h : ∀ x ∈ r.ids, g x = f x) : r.map g = r.map f := by
  match r with
  | .node n ks =>
      rw [ids_node] at h
      rw [map_node, map_node, h n List.mem_cons_self,
        mapAll_congr ks fun x hx => h x (List.mem_cons_of_mem n hx)]

/-- The images of trees depend on the images of their own nodes only. -/
theorem mapAll_congr (ks : List (Rose ι)) (h : ∀ x ∈ idsAll ks, g x = f x) :
    mapAll g ks = mapAll f ks := by
  match ks with
  | [] => simp
  | k :: ks =>
      rw [idsAll_cons] at h
      rw [mapAll_cons, mapAll_cons, map_congr k fun x hx => h x (List.mem_append_left _ hx),
        mapAll_congr ks fun x hx => h x (List.mem_append_right _ hx)]

end

mutual

/-- The image of an image. -/
theorem map_map {γ : Type w} {h : β → γ} (r : Rose ι) : (r.map f).map h = r.map (h ∘ f) := by
  match r with
  | .node n ks => rw [map_node, map_node, map_node, mapAll_mapAll ks, Function.comp_apply]

/-- The images of images. -/
theorem mapAll_mapAll {γ : Type w} {h : β → γ} (ks : List (Rose ι)) :
    mapAll h (mapAll f ks) = mapAll (h ∘ f) ks := by
  match ks with
  | [] => simp
  | k :: ks => rw [mapAll_cons, mapAll_cons, mapAll_cons, map_map k, mapAll_mapAll ks]

end

end Map

mutual

/-- Recursion over a rose tree: combines every node with the values of its subtrees, in order. -/
def fold {β : Type v} (f : ι → List β → β) : Rose ι → β
  | .node n ks => f n (foldAll f ks)

/-- The values of the rose trees of a list. -/
def foldAll {β : Type v} (f : ι → List β → β) : List (Rose ι) → List β
  | [] => []
  | k :: ks => k.fold f :: foldAll f ks

end

section Fold

variable {β : Type v} {f : ι → List β → β}

/-- The values of rose trees, one by one. -/
theorem foldAll_eq_map (ks : List (Rose ι)) : foldAll f ks = ks.map (fold f) := by
  induction ks with
  | nil => simp [foldAll]
  | cons k ks ih => simp [foldAll, ih]

@[simp] theorem fold_node (n : ι) (ks : List (Rose ι)) :
    (node n ks).fold f = f n (ks.map (fold f)) := by
  rw [fold, foldAll_eq_map]

mutual

/-- The nodes in pre-order are the root and then the nodes of the subtrees. -/
theorem fold_ids (r : Rose ι) : (r.fold fun n below => n :: below.flatten) = r.ids := by
  match r with
  | .node n ks => rw [fold, foldAll_ids ks, ids_node]

/-- The nodes of the trees of a list, one list after the other. -/
theorem foldAll_ids (ks : List (Rose ι)) :
    (foldAll (fun n below => n :: below.flatten) ks).flatten = idsAll ks := by
  match ks with
  | [] => simp [foldAll]
  | k :: ks => rw [foldAll, List.flatten_cons, fold_ids k, foldAll_ids ks, idsAll_cons]

end

mutual

/-- Rebuilding a tree from the images of its nodes gives the image of the tree. -/
theorem fold_node_eq_map {g : ι → β} (r : Rose ι) : (r.fold fun n => .node (g n)) = r.map g := by
  match r with
  | .node n ks => rw [fold, foldAll_node_eq_mapAll ks, map_node]

/-- Rebuilding trees from the images of their nodes gives the images of the trees. -/
theorem foldAll_node_eq_mapAll {g : ι → β} (ks : List (Rose ι)) :
    foldAll (fun n => .node (g n)) ks = mapAll g ks := by
  match ks with
  | [] => simp [foldAll]
  | k :: ks => rw [foldAll, fold_node_eq_map k, foldAll_node_eq_mapAll ks, mapAll_cons]

end

end Fold

/-- The roots of the trees of a list occur in pre-order. -/
theorem roots_sublist (ks : List (Rose ι)) : (ks.map root).Sublist (idsAll ks) := by
  induction ks with
  | nil => simp
  | cons k ks ih =>
      cases k with
      | node n ls =>
          rw [List.map_cons, root_node, idsAll_cons, ids_node, List.cons_append]
          exact (ih.trans (List.sublist_append_right _ _)).cons_cons n

/-- The nodes of a list of trees are the nodes of its trees. -/
theorem mem_idsAll {ks : List (Rose ι)} {x : ι} : x ∈ idsAll ks ↔ ∃ k ∈ ks, x ∈ k.ids := by
  induction ks with
  | nil => simp
  | cons k ks ih => simp [ih]

/-- The pre-order of a tree of a list is a part of that of the list. -/
theorem ids_sublist_idsAll {ks : List (Rose ι)} {k : Rose ι} (hk : k ∈ ks) :
    k.ids.Sublist (idsAll ks) := by
  induction ks with
  | nil => cases hk
  | cons q ks ih =>
      rw [idsAll_cons]
      rcases List.mem_cons.mp hk with rfl | hk
      · exact List.sublist_append_left _ _
      · exact (ih hk).trans (List.sublist_append_right _ _)

/-- The root of a tree is one of its nodes. -/
theorem root_mem_ids (r : Rose ι) : r.root ∈ r.ids := by
  cases r
  simp

end Rose

variable {ι : Type u}

/-- **A rose tree spans a child function** when the subtrees of each of its nodes are, in order,
the spanning trees of the children of that node. -/
inductive Spans (children : ι → List ι) : Rose ι → Prop where
  /-- The tree of `n` is spanned by the trees of its children. -/
  | node {n : ι} {ks : List (Rose ι)} (hkids : children n = ks.map Rose.root)
      (hspans : ∀ k ∈ ks, Spans children k) : Spans children (.node n ks)

namespace Spans

variable {children children' : ι → List ι}

/-- The children of the root of a spanning tree are the roots of its subtrees. -/
theorem children_root {r : Rose ι} (h : Spans children r) :
    children r.root = r.kids.map Rose.root := by
  cases h with
  | node hkids _ => exact hkids

/-- The subtrees of a spanning tree span. -/
theorem kids {r : Rose ι} (h : Spans children r) : ∀ k ∈ r.kids, Spans children k := by
  cases h with
  | node _ hspans => exact hspans

/-- **Uniqueness.** The root determines the spanning tree. -/
theorem unique {r r' : Rose ι} (h : Spans children r) (h' : Spans children r')
    (hroot : r.root = r'.root) : r = r' := by
  induction h generalizing r' with
  | @node n ks hkids hspans ih =>
      cases h' with
      | @node n' ks' hkids' hspans' =>
          obtain rfl : n = n' := hroot
          have hroots : ks.map Rose.root = ks'.map Rose.root := hkids.symm.trans hkids'
          clear hkids hkids'
          congr 1
          -- both lists have the same roots in the same order
          induction ks generalizing ks' with
          | nil => simpa using hroots
          | cons k ks ihks =>
              cases ks' with
              | nil => simp at hroots
              | cons k' ks' =>
                  simp only [List.map_cons, List.cons.injEq] at hroots
                  have hk : k = k' :=
                    ih k List.mem_cons_self (hspans' k' List.mem_cons_self) hroots.1
                  have hks : ks = ks' :=
                    ihks (fun q hq => hspans q (List.mem_cons_of_mem k hq))
                      (fun q hq => ih q (List.mem_cons_of_mem k hq))
                      (fun q hq => hspans' q (List.mem_cons_of_mem k' hq)) hroots.2
                  rw [hk, hks]

/-- **Framing.** A spanning tree keeps spanning when the children of its own nodes are kept. -/
theorem congr {r : Rose ι} (h : Spans children r)
    (hagree : ∀ x ∈ r.ids, children' x = children x) : Spans children' r := by
  induction h with
  | @node n ks hkids hspans ih =>
      refine .node ?_ fun k hk => ?_
      · rw [hagree n (by simp), hkids]
      · exact ih k hk fun x hx => hagree x (by simpa using .inr (Rose.mem_idsAll.mpr ⟨k, hk, hx⟩))

/-- **Existence.** Where the child relation is well-founded, every node has a spanning tree. -/
theorem exists_of_wellFounded (hwf : WellFounded fun c p => c ∈ children p) (n : ι) :
    ∃ r : Rose ι, r.root = n ∧ Spans children r := by
  induction n using hwf.induction with
  | _ n ih =>
      have hall : ∀ cs : List ι, (∀ c ∈ cs, c ∈ children n) →
          ∃ ks : List (Rose ι), cs = ks.map Rose.root ∧ ∀ k ∈ ks, Spans children k := by
        intro cs
        induction cs with
        | nil => intro _; exact ⟨[], rfl, by simp⟩
        | cons c cs ihcs =>
            intro hcs
            obtain ⟨k, hroot, hk⟩ := ih c (hcs c List.mem_cons_self)
            obtain ⟨ks, hmap, hks⟩ := ihcs fun d hd => hcs d (List.mem_cons_of_mem c hd)
            exact ⟨k :: ks, by simp [hroot, hmap], by simpa using ⟨hk, hks⟩⟩
      obtain ⟨ks, hmap, hks⟩ := hall (children n) fun _ hc => hc
      exact ⟨.node n ks, rfl, .node hmap hks⟩

/-- The children of a node of a spanning tree occur in its pre-order, in order. -/
theorem children_sublist {r : Rose ι} (h : Spans children r) {m : ι} (hm : m ∈ r.ids) :
    (children m).Sublist r.ids := by
  induction h with
  | @node n ks hkids hspans ih =>
      rw [Rose.ids_node] at hm ⊢
      apply List.Sublist.cons
      rcases List.mem_cons.mp hm with rfl | hm
      · rw [hkids]
        exact Rose.roots_sublist ks
      · obtain ⟨k, hk, hm⟩ := Rose.mem_idsAll.mp hm
        exact (ih k hk hm).trans (Rose.ids_sublist_idsAll hk)

/-- **The nodes of a spanning tree** are the nodes reached from its root along children. -/
theorem mem_ids_iff {r : Rose ι} (h : Spans children r) {x : ι} :
    x ∈ r.ids ↔ Relation.ReflTransGen (fun p c => c ∈ children p) r.root x := by
  induction h with
  | @node n ks hkids hspans ih =>
      rw [Rose.ids_node, List.mem_cons, Rose.mem_idsAll, Rose.root_node,
        Relation.ReflTransGen.cases_head_iff]
      refine or_congr eq_comm ⟨?_, ?_⟩
      · rintro ⟨k, hk, hx⟩
        exact ⟨k.root, by simpa [hkids] using ⟨k, hk, rfl⟩, (ih k hk).mp hx⟩
      · rintro ⟨c, hc, hx⟩
        obtain ⟨k, hk, rfl⟩ : ∃ k ∈ ks, k.root = c := by simpa [hkids] using hc
        exact ⟨k, hk, (ih k hk).mpr hx⟩

end Spans

end Sexp.Library
