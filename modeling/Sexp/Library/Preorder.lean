import Mathlib.Data.List.Sort
import Sexp.Library.Growth

/-! # Numbering in pre-order

A rose tree is determined by its shape and its pre-order (`Rose.eq_of_map_of_ids`), and a forest
whose live nodes are the nodes of one rose tree is determined by that tree
(`OrderedForest.eq_of_spans`).

Let the nodes have ranks, such that the live nodes of a forest are those of rank below some bound
(`Filled`). When the forest grows node by node and stays filled, every new node gets the next rank,
so the pre-order of the new trees is in the order of the ranks (`Grows.inOrder_append`,
`Grows.inOrder_node`), and the ranks number the nodes from zero on (`InOrder.map_eq_range`). -/

namespace Sexp.Library

universe u v w

variable {ι : Type u} {κ : Type v}

/-! ## What the pre-order determines -/

namespace Rose

variable {γ : Type w} {f g : ι → γ}

mutual

/-- **A rose tree is determined by its shape and its pre-order.** -/
theorem eq_of_map_of_ids (r r' : Rose ι) (hmap : r.map f = r'.map g) (hids : r.ids = r'.ids) :
    r = r' := by
  match r, r' with
  | .node n ks, .node n' ks' =>
      simp only [map_node, node.injEq] at hmap
      rw [ids_node, ids_node, List.cons.injEq] at hids
      rw [hids.1, eq_of_mapAll_of_idsAll ks ks' hmap.2 hids.2]

/-- A list of rose trees is determined by the shapes and the pre-order. -/
theorem eq_of_mapAll_of_idsAll (ks ks' : List (Rose ι)) (hmap : mapAll f ks = mapAll g ks')
    (hids : idsAll ks = idsAll ks') : ks = ks' := by
  match ks, ks' with
  | [], [] => rfl
  | k :: ks, k' :: ks' =>
      simp only [mapAll_cons, List.cons.injEq] at hmap
      rw [idsAll_cons, idsAll_cons] at hids
      -- the first trees have the same shape, so as many nodes
      have hlength : k.ids.length = k'.ids.length := by
        rw [← List.length_map f, ← ids_map, hmap.1, ids_map, List.length_map]
      obtain ⟨hk, hks⟩ := List.append_inj hids hlength
      rw [eq_of_map_of_ids k k' hmap.1 hk, eq_of_mapAll_of_idsAll ks ks' hmap.2 hks]
  | [], _ :: _ => simp at hmap
  | _ :: _, [] => simp at hmap

end

/-- Functions with the same image of a rose tree agree on its nodes. -/
theorem eq_of_map_eq {r : Rose ι} (h : r.map f = r.map g) : ∀ m ∈ r.ids, f m = g m := by
  have hids := congrArg ids h
  rwa [ids_map, ids_map, List.map_inj_left] at hids

end Rose

/-- Child functions that span the same rose tree agree on its nodes. -/
theorem Spans.children_eq {children children' : ι → List ι} {r : Rose ι} (h : Spans children r)
    (h' : Spans children' r) : ∀ m ∈ r.ids, children m = children' m := by
  induction h with
  | @node n ks hkids hspans ih =>
      cases h' with
      | node hkids' hspans' =>
        intro m hm
        rw [Rose.ids_node] at hm
        rcases List.mem_cons.mp hm with rfl | hm
        · rw [hkids, hkids']
        · obtain ⟨k, hk, hmem⟩ := Rose.mem_idsAll.mp hm
          exact ih k hk (hspans' k hk) m hmem

/-- **A forest of a single tree is determined by it**: by the rose tree and the labels of its nodes.
-/
theorem OrderedForest.eq_of_spans {F G : OrderedForest ι κ} {r : Rose ι}
    (hF : Spans F.children r) (hG : Spans G.children r) (hmap : r.map F.label = r.map G.label)
    (hliveF : ∀ m, (F.label m).isSome → m ∈ r.ids) (hliveG : ∀ m, (G.label m).isSome → m ∈ r.ids) :
    F = G := by
  have hdead : ∀ {H : OrderedForest ι κ} {m}, (∀ m, (H.label m).isSome → m ∈ r.ids) →
      m ∉ r.ids → H.label m = none := fun hlive hm =>
    Option.not_isSome_iff_eq_none.mp fun hsome => hm (hlive _ hsome)
  have hlabel : F.label = G.label := by
    funext m
    by_cases hm : m ∈ r.ids
    · exact Rose.eq_of_map_eq hmap m hm
    · rw [hdead hliveF hm, hdead hliveG hm]
  have hchildren : F.children = G.children := by
    funext m
    by_cases hm : m ∈ r.ids
    · exact hF.children_eq hG m hm
    · rw [children_eq_nil_of_dead (hdead hliveF hm), children_eq_nil_of_dead (hdead hliveG hm)]
  refine ext hlabel ?_ hchildren
  funext c
  ext p
  rw [← F.mem_children, ← G.mem_children, hchildren]

/-! ## Ranks -/

variable {F G H : OrderedForest ι κ} {at? : Option ι} {rs ss ks : List (Rose ι)} {k : ι}
  {rank : ι → ℕ} {bound : ℕ} {ms : List ι}

/-- **The live nodes are those of rank below a bound.** -/
def Filled (F : OrderedForest ι κ) (rank : ι → ℕ) (bound : ℕ) : Prop :=
  ∀ m, (F.label m).isSome ↔ rank m < bound

/-- **A list of nodes in the order of their ranks.** -/
def InOrder (rank : ι → ℕ) (ms : List ι) : Prop := ms.Pairwise fun m m' => rank m < rank m'

/-- No nodes are in order. -/
@[simp] theorem inOrder_nil : InOrder rank [] := List.Pairwise.nil

/-- A single node is in order. -/
@[simp] theorem inOrder_singleton (m : ι) : InOrder rank [m] := List.pairwise_singleton _ m

/-- What is live in a filled forest ranks before what is not. -/
theorem Filled.lt (h : Filled F rank bound) {m m' : ι} (hm : (F.label m).isSome)
    (hm' : F.label m' = none) : rank m < rank m' := by
  have hlt := (h m).mp hm
  have hge : ¬ rank m' < bound := fun hlt' => by
    have := (h m').mpr hlt'
    simp [hm'] at this
  omega

namespace Grows

/-- **One list of trees behind another** is numbered in pre-order. -/
theorem inOrder_append (h : Grows F G at? rs) (h' : Grows G H at? ss) (hG : Filled G rank bound)
    (hrs : InOrder rank (Rose.idsAll rs)) (hss : InOrder rank (Rose.idsAll ss)) :
    InOrder rank (Rose.idsAll (rs ++ ss)) := by
  rw [Rose.idsAll_append]
  exact List.pairwise_append.mpr
    ⟨hrs, hss, fun m hm m' hm' => hG.lt (h.live_new m hm) (h'.fresh m' hm')⟩

/-- **A node and the trees below it** are numbered in pre-order. -/
theorem inOrder_node (h : Grows F G at? [.node k []]) (h' : Grows G H (some k) ks)
    (hG : Filled G rank bound) (hks : InOrder rank (Rose.idsAll ks)) :
    InOrder rank (Rose.idsAll [.node k ks]) := by
  simp only [Rose.idsAll_cons, Rose.ids_node, Rose.idsAll_nil, List.append_nil]
  exact List.pairwise_cons.mpr
    ⟨fun m hm => hG.lt (h.live_new k (by simp)) (h'.fresh m hm), hks⟩

end Grows

/-- **The ranks number the nodes from zero on**, when they are in order and are the numbers below a
bound. -/
theorem InOrder.map_eq_range (h : InOrder rank ms)
    (hmem : ∀ i, (∃ m ∈ ms, rank m = i) ↔ i < bound) : ms.map rank = List.range bound := by
  have hsorted : (ms.map rank).Pairwise (· < ·) := List.pairwise_map.mpr h
  refine hsorted.eq_of_mem_iff List.pairwise_lt_range fun i => ?_
  rw [List.mem_map, hmem, List.mem_range]

end Sexp.Library
