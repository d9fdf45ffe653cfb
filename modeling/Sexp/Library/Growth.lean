import Sexp.Library.OrderedForest

/-! # Growing a forest

A forest grows when new trees are put at the end of the children of one of its nodes, or beside
its other roots, and nothing else changes (`Grows`). Growth composes: more trees at the same place
(`Grows.append`), and trees below a new node (`Grows.node`). Building a tree node by node, in
depth-first order, is a chain of such steps. -/

namespace Sexp.Library

universe u v

variable {ι : Type u} {κ : Type v}

/-- **Growth.** `G` is `F` with the new trees `rs` at the end of the children of `at?`, or beside
the roots when there is no such node. -/
structure Grows (F G : OrderedForest ι κ) (at? : Option ι) (rs : List (Rose ι)) : Prop where
  /-- The place is a live node of the old forest. -/
  live_at : ∀ p, at? = some p → (F.label p).isSome
  /-- The new nodes were not live before. -/
  fresh : ∀ m ∈ Rose.idsAll rs, F.label m = none
  /-- The new nodes are live. -/
  live_new : ∀ m ∈ Rose.idsAll rs, (G.label m).isSome
  /-- The labels of the old nodes stay. -/
  label_eq : ∀ m, m ∉ Rose.idsAll rs → G.label m = F.label m
  /-- The parents of the old nodes stay. -/
  parent_eq : ∀ m, m ∉ Rose.idsAll rs → G.parent m = F.parent m
  /-- The new roots are put at the place. -/
  parent_root : ∀ r ∈ rs, G.parent r.root = at?
  /-- The place gains the new roots as its last children. -/
  children_at : ∀ p, at? = some p → G.children p = F.children p ++ rs.map Rose.root
  /-- The children of the other old nodes stay. -/
  children_eq : ∀ m, m ∉ Rose.idsAll rs → at? ≠ some m → G.children m = F.children m
  /-- The new trees are spanned by the new forest. -/
  spans : ∀ r ∈ rs, Spans G.children r

namespace Grows

variable {F G H : OrderedForest ι κ} {at? : Option ι} {rs ss ks : List (Rose ι)} {k : ι}

/-- Growing by nothing. -/
theorem nil (hlive : ∀ p, at? = some p → (F.label p).isSome) : Grows F F at? [] where
  live_at := hlive
  fresh := by simp
  live_new := by simp
  label_eq _ _ := rfl
  parent_eq _ _ := rfl
  parent_root := by simp
  children_at := by simp
  children_eq _ _ _ := rfl
  spans := by simp

/-- A live node of the old forest is not one of the new nodes. -/
theorem notMem_of_live (h : Grows F G at? rs) {m : ι} (hm : (F.label m).isSome) :
    m ∉ Rose.idsAll rs := fun hmem => by
  simp [h.fresh m hmem] at hm

/-- The place is not one of the new nodes. -/
theorem at_notMem (h : Grows F G at? rs) {p : ι} (hp : at? = some p) : p ∉ Rose.idsAll rs :=
  h.notMem_of_live (h.live_at p hp)

/-- Live nodes stay live. -/
theorem live (h : Grows F G at? rs) {m : ι} (hm : (F.label m).isSome) : (G.label m).isSome := by
  rw [h.label_eq m (h.notMem_of_live hm)]
  exact hm

/-- What is not live in the new forest was not live in the old one. -/
theorem dead (h : Grows F G at? rs) {m : ι} (hm : G.label m = none) : F.label m = none := by
  by_contra hne
  have := h.live (Option.isSome_iff_ne_none.mpr hne)
  simp [hm] at this

/-- A tree spanned by the old forest away from the place is spanned by the new one. -/
theorem spans_old (h : Grows F G at? rs) {r : Rose ι} (hr : Spans F.children r)
    (hlive : ∀ m ∈ r.ids, (F.label m).isSome) (hat : ∀ p, at? = some p → p ∉ r.ids) :
    Spans G.children r :=
  hr.congr fun m hm => h.children_eq m (h.notMem_of_live (hlive m hm)) fun heq => hat m heq hm

/-- **One new node** without children. -/
theorem single [DecidableEq ι] {kind : κ} (hlive : ∀ p, at? = some p → (F.label p).isSome)
    (hdead : F.label k = none) (hlabel : ∀ m, G.label m = if m = k then some kind else F.label m)
    (hparent : ∀ m, G.parent m = if m = k then at? else F.parent m)
    (hchildren : ∀ m, G.children m =
      if at? = some m then F.children m ++ [k] else F.children m) :
    Grows F G at? [.node k []] where
  live_at := hlive
  fresh m hm := by
    obtain rfl : m = k := by simpa using hm
    exact hdead
  live_new m hm := by
    obtain rfl : m = k := by simpa using hm
    simp [hlabel]
  label_eq m hm := by
    rw [hlabel, if_neg (by simpa using hm)]
  parent_eq m hm := by
    rw [hparent, if_neg (by simpa using hm)]
  parent_root r hr := by
    obtain rfl : r = .node k [] := by simpa using hr
    simp [hparent]
  children_at p hp := by
    rw [hchildren, if_pos hp]
    rfl
  children_eq m _ hat := by
    rw [hchildren, if_neg hat]
  spans r hr := by
    obtain rfl : r = .node k [] := by simpa using hr
    -- the new node is not put below itself, as it was dead
    have hk : at? ≠ some k := fun heq => by simpa [hdead] using hlive k heq
    refine .node ?_ (by simp)
    rw [hchildren, if_neg hk, OrderedForest.children_eq_nil_of_dead hdead, List.map_nil]

/-- A new node beside the roots. -/
theorem setLabel [DecidableEq ι] (hdead : F.label k = none) (kind : κ) :
    Grows F (F.setLabel k kind) none [.node k []] := by
  refine .single (by simp) hdead (fun m => rfl) (fun m => ?_) (fun m => rfl)
  change F.parent m = _
  split
  · rename_i hm
    rw [hm, OrderedForest.parent_eq_none_of_dead hdead]
  · rfl

/-- A new node at the end of the children of another. -/
theorem place [DecidableEq ι] {p : ι} {kind : κ} (hlive : (F.label p).isSome)
    (hdead : F.label k = none) {hp : ((F.setLabel k kind).label p).isSome}
    {hk : ((F.setLabel k kind).label k).isSome} {hfree : (F.setLabel k kind).parent k = none}
    {hbelow : p ∉ (F.setLabel k kind).subtree k}
    {hgap : (F.setLabel k kind).children p = F.children p ++ []} :
    Grows F ((F.setLabel k kind).place p k (F.children p) [] hp hk hfree hbelow hgap) (some p)
      [.node k []] := by
  refine .single (fun q hq => Option.some.inj hq ▸ hlive) hdead (fun m => rfl)
    (fun m => rfl) (fun m => ?_)
  change (if m = p then F.children p ++ [k] else F.children m) = _
  by_cases hm : m = p
  · rw [if_pos hm, hm, if_pos rfl]
  · rw [if_neg hm, if_neg (by simpa using Ne.symm hm)]

/-- **More trees at the same place.** -/
theorem append (h : Grows F G at? rs) (h' : Grows G H at? ss) : Grows F H at? (rs ++ ss) where
  live_at := h.live_at
  fresh m hm := by
    rw [Rose.idsAll_append, List.mem_append] at hm
    rcases hm with hm | hm
    · exact h.fresh m hm
    · exact h.dead (h'.fresh m hm)
  live_new m hm := by
    rw [Rose.idsAll_append, List.mem_append] at hm
    rcases hm with hm | hm
    · exact h'.live (h.live_new m hm)
    · exact h'.live_new m hm
  label_eq m hm := by
    rw [Rose.idsAll_append, List.mem_append, not_or] at hm
    rw [h'.label_eq m hm.2, h.label_eq m hm.1]
  parent_eq m hm := by
    rw [Rose.idsAll_append, List.mem_append, not_or] at hm
    rw [h'.parent_eq m hm.2, h.parent_eq m hm.1]
  parent_root r hr := by
    rcases List.mem_append.mp hr with hr | hr
    · -- the roots of the first half stay where they are
      have hmem : r.root ∈ Rose.idsAll rs := Rose.mem_idsAll.mpr ⟨r, hr, r.root_mem_ids⟩
      rw [h'.parent_eq _ (h'.notMem_of_live (h.live_new _ hmem)), h.parent_root r hr]
    · exact h'.parent_root r hr
  children_at p hp := by
    rw [h'.children_at p hp, h.children_at p hp, List.map_append, List.append_assoc]
  children_eq m hm hat := by
    rw [Rose.idsAll_append, List.mem_append, not_or] at hm
    rw [h'.children_eq m hm.2 hat, h.children_eq m hm.1 hat]
  spans r hr := by
    rcases List.mem_append.mp hr with hr | hr
    · -- the second half puts nothing below the trees of the first
      have hmem : ∀ m ∈ r.ids, m ∈ Rose.idsAll rs := fun m hm => Rose.mem_idsAll.mpr ⟨r, hr, hm⟩
      exact h'.spans_old (h.spans r hr) (fun m hm => h.live_new m (hmem m hm))
        fun p hp hmem' => h.at_notMem hp (hmem p hmem')
    · exact h'.spans r hr

/-- **Trees below a new node.** -/
theorem node (h : Grows F G at? [.node k []]) (h' : Grows G H (some k) ks) :
    Grows F H at? [.node k ks] where
  live_at := h.live_at
  fresh m hm := by
    simp only [Rose.idsAll_cons, Rose.ids_node, Rose.idsAll_nil, List.append_nil,
      List.mem_cons] at hm
    rcases hm with rfl | hm
    · exact h.fresh m (by simp)
    · exact h.dead (h'.fresh m hm)
  live_new m hm := by
    simp only [Rose.idsAll_cons, Rose.ids_node, Rose.idsAll_nil, List.append_nil,
      List.mem_cons] at hm
    rcases hm with rfl | hm
    · exact h'.live (h.live_new m (by simp))
    · exact h'.live_new m hm
  label_eq m hm := by
    simp only [Rose.idsAll_cons, Rose.ids_node, Rose.idsAll_nil, List.append_nil, List.mem_cons,
      not_or] at hm
    rw [h'.label_eq m hm.2, h.label_eq m (by simpa using hm.1)]
  parent_eq m hm := by
    simp only [Rose.idsAll_cons, Rose.ids_node, Rose.idsAll_nil, List.append_nil, List.mem_cons,
      not_or] at hm
    rw [h'.parent_eq m hm.2, h.parent_eq m (by simpa using hm.1)]
  parent_root r hr := by
    obtain rfl : r = .node k ks := by simpa using hr
    rw [Rose.root_node, h'.parent_eq k (h'.at_notMem rfl)]
    exact h.parent_root (.node k []) List.mem_cons_self
  children_at p hp := by
    -- what grows below `k` does not touch the node above `k`
    have hpk : p ≠ k := by
      rintro rfl
      exact h.at_notMem hp (by simp)
    rw [h'.children_eq p (h'.notMem_of_live (h.live (h.live_at p hp))) (by simpa using hpk.symm),
      h.children_at p hp]
    rfl
  children_eq m hm hat := by
    simp only [Rose.idsAll_cons, Rose.ids_node, Rose.idsAll_nil, List.append_nil, List.mem_cons,
      not_or] at hm
    rw [h'.children_eq m hm.2 (by simpa using Ne.symm hm.1),
      h.children_eq m (by simpa using hm.1) hat]
  spans r hr := by
    obtain rfl : r = .node k ks := by simpa using hr
    refine .node ?_ h'.spans
    have hempty : G.children k = [] := (h.spans _ List.mem_cons_self).children_root
    rw [h'.children_at k rfl, hempty, List.nil_append]

end Grows

end Sexp.Library
