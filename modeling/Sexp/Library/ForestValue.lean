import Sexp.Library.OrderedForest

/-! # Values of the nodes of a forest

A value of a node that is computed from its label and the values of its children (`value`): it
depends on the subtree of the node only (`value_congr`), so that an edit leaves the values alone of
all nodes that are not above it.

The edits are described by what becomes of labels, parents and children: a node moves (`Moves`), or
is deleted with its subtree (`Deletes`). A description determines the forest, and a node that moves
back gives the forest back (`Moves.back`). -/

namespace Sexp.Library

universe u v w

namespace OrderedForest

variable {ι : Type u} {κ κ' : Type v} {β : Type w} {F G H : OrderedForest ι κ} {n m p c : ι}

/-! ## Other labels -/

/-- **The forest with other labels.** -/
def mapLabel (g : κ → κ') (F : OrderedForest ι κ) : OrderedForest ι κ' where
  label n := (F.label n).map g
  parent := F.parent
  children := F.children
  nodup_children := F.nodup_children
  mem_children := F.mem_children
  live_parent h := by simpa using F.live_parent h
  live_child h := by simpa using F.live_child h
  acyclic := F.acyclic

section MapLabel

variable {g : κ → κ'}

@[simp] theorem label_mapLabel : (F.mapLabel g).label n = (F.label n).map g := rfl

@[simp] theorem parent_mapLabel : (F.mapLabel g).parent = F.parent := rfl

@[simp] theorem children_mapLabel : (F.mapLabel g).children = F.children := rfl

@[simp] theorem subtree_mapLabel : (F.mapLabel g).subtree = F.subtree := rfl

/-- Other labels for a forest with another label. -/
theorem mapLabel_setLabel [DecidableEq ι] {k : κ} :
    (F.setLabel n k).mapLabel g = (F.mapLabel g).setLabel n (g k) := by
  refine ext (funext fun m => ?_) rfl rfl
  simp only [setLabel, label_mapLabel]
  split <;> rfl

end MapLabel

/-! ## Values -/

section Value

variable [Finite ι]

/-- The spanning tree of a node. -/
noncomputable def rose (F : OrderedForest ι κ) (n : ι) : Rose ι := (F.exists_spans n).choose

@[simp] theorem root_rose : (F.rose n).root = n := (F.exists_spans n).choose_spec.1

theorem spans_rose : Spans F.children (F.rose n) := (F.exists_spans n).choose_spec.2

/-- A spanning tree is the one of its root. -/
theorem rose_eq {r : Rose ι} (hr : Spans F.children r) : F.rose r.root = r :=
  spans_rose.unique hr root_rose

/-- The spanning tree of a node consists of the spanning trees of its children. -/
theorem rose_eq_node : F.rose n = .node n ((F.children n).map F.rose) := by
  refine spans_rose.unique (.node ?_ fun k hk => ?_) root_rose
  · rw [List.map_map]
    simp [Function.comp_def]
  · obtain ⟨c, -, rfl⟩ := List.mem_map.mp hk
    exact spans_rose

/-- **The value of a node**: computed from its label and the values of its children, in order. -/
noncomputable def value (f : Option κ → List β → β) (F : OrderedForest ι κ) (n : ι) : β :=
  (F.rose n).fold fun m => f (F.label m)

variable {f : Option κ → List β → β}

/-- The value of the root of a spanning tree. -/
theorem value_of_spans {r : Rose ι} (hr : Spans F.children r) :
    F.value f r.root = r.fold fun m => f (F.label m) := by
  rw [value, rose_eq hr]

/-- **The equation of the value.** -/
theorem value_eq : F.value f n = f (F.label n) ((F.children n).map (F.value f)) := by
  rw [value, rose_eq_node, Rose.fold_node, List.map_map]
  rfl

/-- A value is computed from the labels in the subtree of the node. -/
theorem value_eq_fold : F.value f n = (F.value Rose.node n).fold f := by
  induction n using F.wellFounded_down.induction with
  | _ n ih =>
      rw [value_eq, value_eq, Rose.fold_node, List.map_map]
      exact congrArg _ (List.map_congr_left fun c hc => ih c hc)

/-- The labels in the subtree of the root of a spanning tree. -/
theorem value_node_of_spans {r : Rose ι} (hr : Spans F.children r) :
    F.value Rose.node r.root = r.map F.label := by
  rw [value_of_spans hr, Rose.fold_node_eq_map]

/-- **Framing.** The value of a node depends on the labels and the children in its subtree only. -/
theorem value_congr
    (h : ∀ m ∈ F.subtree n, G.label m = F.label m ∧ G.children m = F.children m) :
    G.value f n = F.value f n := by
  induction n using F.wellFounded_down.induction with
  | _ n ih =>
      obtain ⟨hlabel, hchildren⟩ := h n self_mem_subtree
      rw [value_eq, value_eq, hlabel, hchildren]
      refine congrArg _ (List.map_congr_left fun c hc => ?_)
      have hedge : F.Edge n c := F.mem_children.mp hc
      exact ih c hc fun m hm => h m (Relation.ReflTransGen.head hedge hm)

end Value

/-! ## Edits, described -/

section Edits

variable [DecidableEq ι] {put : List ι → List ι}

/-- **`G` is `F` with the subtree of `c` moved under `p`**: `put` says where `c` goes among the
other children of `p`. -/
structure Moves (F G : OrderedForest ι κ) (p c : ι) (put : List ι → List ι) : Prop where
  /-- The labels stay. -/
  label : G.label = F.label
  /-- The parent of `c` is `p`, and the other parents stay. -/
  parent : ∀ m, G.parent m = if m = c then some p else F.parent m
  /-- The children of `p` without `c` take it in, and the other child lists lose it. -/
  children : ∀ q, G.children q =
    if q = p then put ((F.children p).erase c) else (F.children q).erase c

/-- **`G` is `F` without the subtree of `n`.** -/
structure Deletes (F G : OrderedForest ι κ) (n : ι) : Prop where
  /-- The nodes of the subtree are not live. -/
  dead : ∀ m ∈ F.subtree n, G.label m = none
  /-- The other nodes stay, and their child lists lose the node. -/
  stays : ∀ m, m ∉ F.subtree n →
    G.label m = F.label m ∧ G.parent m = F.parent m ∧ G.children m = (F.children m).erase n

namespace Moves

variable {g : κ → κ'}

/-- A move under other labels. -/
theorem mapLabel (h : F.Moves G p c put) (g : κ → κ') :
    (F.mapLabel g).Moves (G.mapLabel g) p c put where
  label := funext fun m => by simp [h.label]
  parent := h.parent
  children := h.children

/-- Where the node goes is what matters. -/
theorem congr {put' : List ι → List ι} (h : F.Moves G p c put)
    (hput : put ((F.children p).erase c) = put' ((F.children p).erase c)) :
    F.Moves G p c put' where
  label := h.label
  parent := h.parent
  children q := by rw [h.children, hput]

/-- A description of a move determines the forest. -/
theorem unique (h : F.Moves G p c put) (h' : F.Moves H p c put) : G = H := by
  refine ext (h.label.trans h'.label.symm) (funext fun m => ?_) (funext fun q => ?_)
  · rw [h.parent, h'.parent]
  · rw [h.children, h'.children]

/-- What is below a node after a move has been below it, or is carried there. -/
theorem subtree_cases {d : ι} (h : F.Moves G p c put) (hm : m ∈ G.subtree d) :
    m ∈ F.subtree d ∨ p ∈ F.subtree d ∧ m ∈ F.subtree c := by
  induction hm with
  | refl => exact .inl self_mem_subtree
  | @tail a b _ hedge ih =>
      have hparent : G.parent b = some a := hedge
      rw [h.parent] at hparent
      split at hparent
      · -- the edge to the node that moves
        rename_i hb
        obtain rfl := Option.some.inj hparent
        exact .inr ⟨ih.elim id And.left, hb ▸ self_mem_subtree⟩
      · exact ih.imp (fun ha => mem_subtree_of_child ha hparent)
          fun ⟨hp, ha⟩ => ⟨hp, mem_subtree_of_child ha hparent⟩

/-- No node gets below the one that moves. -/
theorem subtree_subset (h : F.Moves G p c put) (hm : m ∈ G.subtree c) : m ∈ F.subtree c :=
  (h.subtree_cases hm).elim id And.right

/-- Nodes that are neither above the new parent nor above the old one keep their values. -/
theorem value_eq [Finite ι] {f : Option κ → List β → β} (h : F.Moves G p c put)
    (hnew : p ∉ F.subtree n) (hold : ∀ q, F.parent c = some q → q ∉ F.subtree n) :
    G.value f n = F.value f n := by
  refine value_congr fun m hm => ⟨congrFun h.label m, ?_⟩
  have hne : m ≠ p := fun heq => hnew (heq ▸ hm)
  rw [h.children, if_neg hne, List.erase_of_not_mem]
  -- a node that has the moved one as a child is its old parent
  intro hc
  exact hold m (F.mem_children.mp hc) hm

/-- **The last move of a node counts.** Once the node is taken out again, nothing is left of an
earlier move of it. -/
theorem last {q : ι} {put' : List ι → List ι} (h : F.Moves G p c put) (hlast : G.Moves H q c put')
    (hput : (put ((F.children p).erase c)).erase c = (F.children p).erase c) :
    F.Moves H q c put' := by
  -- once `c` is taken out, all child lists are the old ones without `c`
  have hwithout : ∀ m, (G.children m).erase c = (F.children m).erase c := by
    intro m
    rw [h.children]
    split
    · rename_i hm
      rw [hput, hm]
    · exact erase_erase_children F
  refine ⟨hlast.label.trans h.label, fun m => ?_, fun m => ?_⟩
  · rw [hlast.parent, h.parent]
    split <;> rfl
  · rw [hlast.children, hwithout, hwithout]

/-- **Staying in place.** A node that is put where it is has not moved. -/
theorem stay {q : ι} {xs ys : List ι} (hq : F.parent c = some q)
    (hchildren : F.children q = xs ++ c :: ys) (hput : put (xs ++ ys) = xs ++ c :: ys) :
    F.Moves F q c put where
  label := rfl
  parent m := by
    split
    · rename_i hm
      rw [hm, hq]
    · rfl
  children m := by
    have hnodup := hchildren ▸ F.nodup_children q
    have hxs : c ∉ xs := fun hmem =>
      (List.nodup_append.mp hnodup).2.2 c hmem c List.mem_cons_self rfl
    split
    · rename_i hm
      rw [hm, hchildren, List.erase_append_right _ hxs, List.erase_cons_head, hput]
    · rename_i hm
      rw [List.erase_of_not_mem]
      intro hmem
      rw [F.mem_children, hq] at hmem
      exact hm (Option.some.inj hmem).symm

/-- **Moving back.** A node that moves away from `q`, whose children are then `xs ++ ys`, and back
between `xs` and `ys` is where it has been. -/
theorem back {q : ι} {xs ys : List ι} {put' : List ι → List ι} (h : F.Moves G p c put)
    (hback : G.Moves H q c put') (hq : F.parent c = some q)
    (hchildren : F.children q = xs ++ c :: ys)
    (hput : (put ((F.children p).erase c)).erase c = (F.children p).erase c)
    (hput' : put' (xs ++ ys) = xs ++ c :: ys) : H = F :=
  (h.last hback hput).unique (stay hq hchildren hput')

/-- **Moves of different nodes to different parents commute**, when the place of each of them does
not depend on the other. -/
theorem commute {G' H' : OrderedForest ι κ} {q d : ι} {put' : List ι → List ι}
    (h : F.Moves G p c put) (hthen : G.Moves H q d put') (h' : F.Moves G' q d put')
    (hthen' : G'.Moves H' p c put) (hparents : p ≠ q) (hnodes : c ≠ d)
    (hput : (put ((F.children p).erase c)).erase d = put (((F.children p).erase c).erase d))
    (hput' : (put' ((F.children q).erase d)).erase c = put' (((F.children q).erase d).erase c)) :
    H' = H := by
  refine ext ?_ (funext fun m => ?_) (funext fun m => ?_)
  · rw [hthen'.label, h'.label, hthen.label, h.label]
  · rw [hthen'.parent, h'.parent, hthen.parent, h.parent]
    by_cases hm : m = c
    · rw [if_pos hm, if_neg fun hd => hnodes (hm.symm.trans hd), if_pos hm]
    · rw [if_neg hm, if_neg hm]
  · rw [hthen'.children, h'.children, h'.children, hthen.children, h.children, h.children,
      if_neg hparents, if_neg hparents.symm]
    by_cases hp : m = p
    · rw [if_pos hp, if_neg fun hq => hparents (hp.symm.trans hq), if_pos hp, hput,
        List.erase_comm]
    · rw [if_neg hp, if_neg hp]
      split
      · rw [hput', List.erase_comm]
      · exact List.erase_comm ..

end Moves

namespace Deletes

/-- A deletion under other labels. -/
theorem mapLabel (h : F.Deletes G n) (g : κ → κ') : (F.mapLabel g).Deletes (G.mapLabel g) n where
  dead m hm := by simp [h.dead m hm]
  stays m hm := by
    obtain ⟨hlabel, hparent, hchildren⟩ := h.stays m hm
    exact ⟨by simp [hlabel], hparent, hchildren⟩

/-- Nodes that are neither deleted nor above the deleted one keep their values. -/
theorem value_eq [Finite ι] {f : Option κ → List β → β} (h : F.Deletes G n)
    (hm : n ∉ F.subtree m) (hdead : m ∉ F.subtree n) : G.value f m = F.value f m := by
  refine value_congr fun x hx => ?_
  -- what lies below `m` and is deleted has `n` above `m`
  have hout : x ∉ F.subtree n := fun hxn =>
    (subtree_total hx hxn).elim hdead hm
  obtain ⟨hlabel, -, hchildren⟩ := h.stays x hout
  refine ⟨hlabel, ?_⟩
  rw [hchildren, List.erase_of_not_mem]
  intro hmem
  exact hm (mem_subtree_of_child hx (F.mem_children.mp hmem))

end Deletes

end Edits

end OrderedForest

end Sexp.Library
