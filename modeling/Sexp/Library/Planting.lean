import Sexp.Library.ForestValue
import Sexp.Library.Growth

/-! # Planting trees

A forest can be built from the leaves up. New trees are planted beside its roots (`Plants`), one
after the other (`Plants.append`), and one of them adopts another as its last child
(`Plants.adopt`). In which order the planted trees are listed does not matter (`Plants.perm`). -/

namespace Sexp.Library

universe u v

open OrderedForest (edge_iff mem_subtree)

variable {ι : Type u} {κ : Type v} {F G H : OrderedForest ι κ} {rs ss ks : List (Rose ι)}
  {r s : Rose ι} {k m n : ι}

/-- A node without a parent is below no other node. -/
theorem OrderedForest.eq_of_mem_subtree_root (hroot : F.parent m = none)
    (hm : m ∈ F.subtree n) : m = n := by
  rcases Relation.ReflTransGen.cases_tail (mem_subtree.mp hm) with heq | ⟨p, -, hedge⟩
  · exact heq
  · rw [edge_iff, hroot] at hedge
    cases hedge

section Moves

variable [DecidableEq ι] {p c : ι} {put : List ι → List ι}

/-- What becomes of the child lists when a node without a parent moves. -/
theorem OrderedForest.Moves.children_of_root (h : F.Moves G p c put) (hroot : F.parent c = none)
    (q : ι) : G.children q = if q = p then put (F.children p) else F.children q := by
  have hout : ∀ p, (F.children p).erase c = F.children p := fun p =>
    List.erase_of_not_mem fun hc => by
      rw [F.mem_children, hroot] at hc
      cases hc
  rw [h.children, hout, hout]

/-- When a node without a parent moves, what does not hold its new parent is spanned as before. -/
theorem OrderedForest.Moves.spans (h : F.Moves G p c put) (hroot : F.parent c = none)
    (hr : Spans F.children r) (hp : p ∉ r.ids) : Spans G.children r := by
  refine hr.congr fun x hx => ?_
  have hne : x ≠ p := fun heq => hp (heq ▸ hx)
  rw [h.children_of_root hroot, if_neg hne]

end Moves

/-- **Planting.** `G` is `F` with the new trees `rs` beside its roots. -/
structure Plants (F G : OrderedForest ι κ) (rs : List (Rose ι)) : Prop where
  /-- The forest grows by the trees. -/
  grows : Grows F G none rs
  /-- No tree is listed twice. -/
  nodup_roots : (rs.map Rose.root).Nodup

namespace Plants

/-- Planting nothing. -/
theorem nil : Plants F F [] where
  grows := .nil fun p hp => by cases hp
  nodup_roots := List.nodup_nil

/-- Planting a node. -/
theorem setLabel [DecidableEq ι] (hdead : F.label k = none) (kind : κ) :
    Plants F (F.setLabel k kind) [.node k []] where
  grows := .setLabel hdead kind
  nodup_roots := List.nodup_singleton _

/-- The root of a planted tree has no parent. -/
theorem parent_root (h : Plants F G rs) (hr : r ∈ rs) : G.parent r.root = none :=
  h.grows.parent_root r hr

/-- The root of a planted tree is new. -/
theorem root_fresh (h : Plants F G rs) (hr : r ∈ rs) : F.label r.root = none :=
  h.grows.fresh _ (Rose.mem_idsAll.mpr ⟨r, hr, r.root_mem_ids⟩)

/-- The root of a planted tree is live. -/
theorem live_root (h : Plants F G rs) (hr : r ∈ rs) : (G.label r.root).isSome :=
  h.grows.live_new _ (Rose.mem_idsAll.mpr ⟨r, hr, r.root_mem_ids⟩)

/-- The root of a planted tree is in no other planted tree. -/
theorem root_notMem (h : Plants F G rs) (hr : r ∈ rs) (hs : s ∈ rs) (hne : r.root ≠ s.root) :
    r.root ∉ s.ids := by
  intro hmem
  rw [OrderedForest.mem_ids_iff_mem_subtree (h.grows.spans s hs)] at hmem
  exact hne (OrderedForest.eq_of_mem_subtree_root (h.parent_root hr) hmem)

/-- **Planting more trees.** -/
theorem append (h : Plants F G rs) (h' : Plants G H ss) : Plants F H (rs ++ ss) where
  grows := h.grows.append h'.grows
  nodup_roots := by
    rw [List.map_append]
    refine h.nodup_roots.append h'.nodup_roots fun x hx hx' => ?_
    -- what is planted first is live when the rest is planted
    obtain ⟨r, hr, rfl⟩ := List.mem_map.mp hx
    obtain ⟨s, hs, heq⟩ := List.mem_map.mp hx'
    have hlive := h.live_root hr
    rw [← heq, h'.root_fresh hs] at hlive
    cases hlive

/-- **The order of the trees** does not matter. -/
theorem perm (h : Plants F G rs) (hperm : rs.Perm ss) : Plants F G ss := by
  have hmem : ∀ m, m ∈ Rose.idsAll ss ↔ m ∈ Rose.idsAll rs := fun m => by
    simp only [Rose.mem_idsAll, hperm.mem_iff]
  refine ⟨⟨fun p hp => ?_, fun m hm => ?_, fun m hm => ?_, fun m hm => ?_, fun m hm => ?_,
    fun r hr => ?_, fun p hp => ?_, fun m hm hat => ?_, fun r hr => ?_⟩, ?_⟩
  · cases hp
  · exact h.grows.fresh m ((hmem m).mp hm)
  · exact h.grows.live_new m ((hmem m).mp hm)
  · exact h.grows.label_eq m ((hmem m).not.mp hm)
  · exact h.grows.parent_eq m ((hmem m).not.mp hm)
  · exact h.grows.parent_root r (hperm.mem_iff.mpr hr)
  · cases hp
  · exact h.grows.children_eq m ((hmem m).not.mp hm) hat
  · exact h.grows.spans r (hperm.mem_iff.mpr hr)
  · exact (hperm.map Rose.root).nodup_iff.mp h.nodup_roots

/-- **Adoption.** A planted tree becomes the last child of the root of another. -/
theorem adopt [DecidableEq ι] (h : Plants F G (.node k ks :: r :: rs))
    (hmoves : G.Moves H k r.root fun l => l ++ [r.root]) :
    Plants F H (.node k (ks ++ [r]) :: rs) := by
  have hr : r ∈ .node k ks :: r :: rs := by simp
  have hroots := h.nodup_roots
  simp only [List.map_cons, Rose.root_node, List.nodup_cons, List.mem_cons, not_or] at hroots
  have hkr := hroots.1.1
  have hks := hroots.1.2
  have hrs := hroots.2.1
  have hmem : ∀ m, m ∈ Rose.idsAll (.node k (ks ++ [r]) :: rs) ↔
      m ∈ Rose.idsAll (.node k ks :: r :: rs) := fun m => by
    simp
  have hk : Rose.node k ks ∈ .node k ks :: r :: rs := by simp
  have hfree := h.parent_root hr
  have hspans := h.grows.spans _ hk
  have hkids : G.children k = ks.map Rose.root := hspans.children_root
  -- the other trees do not hold the adopting node
  have hother : ∀ t ∈ .node k ks :: r :: rs, k ≠ t.root → Spans H.children t := fun t ht hne =>
    hmoves.spans hfree (h.grows.spans t ht) (h.root_notMem hk ht hne)
  refine ⟨⟨fun p hp => ?_, fun m hm => ?_, fun m hm => ?_, fun m hm => ?_, fun m hm => ?_,
    fun t ht => ?_, fun p hp => ?_, fun m hm hat => ?_, fun t ht => ?_⟩, ?_⟩
  · cases hp
  · exact h.grows.fresh m ((hmem m).mp hm)
  · rw [hmoves.label]
    exact h.grows.live_new m ((hmem m).mp hm)
  · rw [hmoves.label]
    exact h.grows.label_eq m ((hmem m).not.mp hm)
  · have hold := (hmem m).not.mp hm
    have hne : m ≠ r.root := fun heq =>
      hold (heq ▸ Rose.mem_idsAll.mpr ⟨r, hr, r.root_mem_ids⟩)
    rw [hmoves.parent, if_neg hne, h.grows.parent_eq m hold]
  · rcases List.mem_cons.mp ht with rfl | ht
    · rw [Rose.root_node, hmoves.parent, if_neg hkr]
      exact h.parent_root hk
    · have hne : t.root ≠ r.root := fun heq => hrs (heq ▸ List.mem_map_of_mem ht)
      rw [hmoves.parent, if_neg hne]
      exact h.parent_root (by simp [ht])
  · cases hp
  · have hold := (hmem m).not.mp hm
    have hne : m ≠ k := fun heq => hold (by simp [heq])
    rw [hmoves.children_of_root hfree, if_neg hne, h.grows.children_eq m hold hat]
  · rcases List.mem_cons.mp ht with rfl | ht
    · refine .node ?_ fun t ht => ?_
      · rw [hmoves.children_of_root hfree, if_pos rfl, hkids, List.map_append]
        rfl
      · rcases List.mem_append.mp ht with ht | ht
        · -- a child of the adopting node does not hold it
          have hchild := hspans.kids t ht
          have hparent : G.parent t.root = some k := by
            rw [← G.mem_children, hkids]
            exact List.mem_map_of_mem ht
          refine hmoves.spans hfree hchild fun hmem => ?_
          rw [OrderedForest.mem_ids_iff_mem_subtree hchild] at hmem
          exact OrderedForest.parent_notMem_subtree hparent hmem
        · obtain rfl := List.mem_singleton.mp ht
          exact hother _ hr hkr
    · exact hother t (by simp [ht]) fun heq => hks (heq ▸ List.mem_map_of_mem ht)
  · rw [List.map_cons, Rose.root_node]
    exact List.nodup_cons.mpr ⟨hks, hroots.2.2⟩

end Plants

end Sexp.Library
