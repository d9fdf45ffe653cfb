import Sexp.Core.WellFormed
import Sexp.Library.Preorder

/-! # Nodes that are numbered in pre-order

In a slab without free slots the live keys are those of the slots. When such a slab is filled node
by node, parents before children and siblings in order, the slots number the nodes of the tree in
pre-order (`Tree.Numbered`). The nodes, with all their links, are then determined by what the tree
looks like (`Tree.Numbered.nodes_eq`). -/

namespace Sexp

open Library (OrderedForest Rose Spans Filled InOrder)

variable {tree tree' : Tree} {F : OrderedForest NodeId NodeType} {shape : Rose (Option NodeType)}
  {r : Rose NodeId} {n : ℕ}

/-! ## Slabs without free slots -/

/-- The key of a slot. -/
theorem Key.slot_ofNat {i : ℕ} (hi : i < 2 ^ 32) : (⟨UInt32.ofNat i⟩ : Key).slot = i :=
  UInt32.toNat_ofNat_of_lt' hi

namespace Slab

variable {α : Type} {slab slab' : Slab α}

/-- The live keys of a slab without free slots are those of the slots. -/
theorem WellFormed.isSome_get_iff (h : slab.WellFormed) (hfree : slab.free = []) (key : Key) :
    (slab.get key).isSome ↔ key.slot < slab.slots.length := by
  have hfull := h.mem_free key.slot
  rw [hfree] at hfull
  rw [get]
  rcases hslot : slab.slots[key.slot]? with _ | (_ | value)
  · simpa using hslot
  · simp [hslot] at hfull
  · have hlt := (List.getElem?_eq_some_iff.mp hslot).1
    exact iff_of_true rfl hlt

/-- Slabs with the same slots and no free ones are equal when their keys give the same. -/
theorem WellFormed.eq_of_get (h : slab.WellFormed) (hfree : slab.free = [])
    (hfree' : slab'.free = []) (hlength : slab'.slots.length = slab.slots.length)
    (hfits : slab.slots.length ≤ 2 ^ 32) (hget : ∀ key, slab'.get key = slab.get key) :
    slab' = slab := by
  have hslots : slab'.slots = slab.slots := by
    refine List.ext_getElem? fun i => ?_
    by_cases hi : i < slab.slots.length
    · have hkey := Key.slot_ofNat (lt_of_lt_of_le hi hfits)
      have hlive := (h.isSome_get_iff hfree ⟨UInt32.ofNat i⟩).mpr (by rwa [hkey])
      obtain ⟨value, hvalue⟩ := Option.isSome_iff_exists.mp hlive
      have hvalue' := (hget _).trans hvalue
      rw [get, hkey] at hvalue hvalue'
      rw [Option.join_eq_some_iff.mp hvalue, Option.join_eq_some_iff.mp hvalue']
    · rw [List.getElem?_eq_none (by omega), List.getElem?_eq_none (by omega)]
  cases slab
  cases slab'
  simp only at hslots hfree hfree'
  rw [hslots, hfree, hfree']

end Slab

/-- The live nodes of a tree without free slots are those of the slots. -/
theorem Tree.Represents.filled (hF : tree.Represents F) (hslab : tree.nodes.WellFormed)
    (hfree : tree.nodes.free = []) : Filled F Key.slot tree.nodes.slots.length := fun m => by
  rw [← hF.live_iff, Tree.Live, hslab.isSome_get_iff hfree]

/-! ## Numbered trees -/

/-- **A tree whose nodes are numbered in pre-order**: there is no free slot, and the slots number
the nodes at and below the root, which look like this. -/
structure Tree.Numbered (tree : Tree) (shape : Rose (Option NodeType)) : Prop where
  /-- The slab is consistent. -/
  slab : tree.nodes.WellFormed
  /-- No slot is free. -/
  free_eq : tree.nodes.free = []
  /-- The nodes in pre-order. -/
  nodes : ∃ F r, tree.Represents F ∧ Spans F.children r ∧ r.root = tree.root ∧
    r.map F.label = shape ∧ r.ids.map Key.slot = List.range tree.nodes.slots.length

/-- A tree without free slots is numbered in pre-order, when its live nodes are those of a rose
tree, and the slots are in order. -/
theorem Tree.Represents.numbered (hF : tree.Represents F) (hslab : tree.nodes.WellFormed)
    (hfree : tree.nodes.free = []) (hfits : tree.nodes.slots.length ≤ 2 ^ 32)
    (hr : Spans F.children r) (hroot : r.root = tree.root)
    (hlive : ∀ m, (F.label m).isSome ↔ m ∈ r.ids) (horder : InOrder Key.slot r.ids) :
    tree.Numbered (r.map F.label) := by
  have hfilled := hF.filled hslab hfree
  refine ⟨hslab, hfree, F, r, hF, hr, hroot, rfl, horder.map_eq_range fun i => ?_⟩
  constructor
  · rintro ⟨m, hm, rfl⟩
    exact (hfilled m).mp ((hlive m).mpr hm)
  · intro hi
    have hkey := Key.slot_ofNat (lt_of_lt_of_le hi hfits)
    exact ⟨_, (hlive _).mp ((hfilled _).mpr (by rwa [hkey])), hkey⟩

namespace Tree.Numbered

/-- The slots are the nodes of the shape. -/
theorem length_slots (h : tree.Numbered shape) : tree.nodes.slots.length = shape.ids.length := by
  obtain ⟨F, r, -, -, -, rfl, hids⟩ := h.nodes
  have hlength := congrArg List.length hids
  rw [List.length_map, List.length_range] at hlength
  rw [Rose.ids_map, List.length_map, hlength]

/-- The root takes the first slot. -/
theorem root_eq (h : tree.Numbered shape) : tree.root = ⟨0⟩ := by
  obtain ⟨F, r, -, -, hroot, -, hids⟩ := h.nodes
  obtain ⟨n, ks⟩ := r
  have hhead := congrArg List.head? hids
  rw [Rose.ids_node, List.map_cons, List.head?_cons, List.head?_range] at hhead
  rw [← hroot, Rose.root_node, ← Key.slot_inj]
  split at hhead
  · cases hhead
  · exact Option.some.inj hhead

/-- There are keys for all slots. -/
theorem length_slots_le (h : tree.Numbered shape) : tree.nodes.slots.length ≤ 2 ^ 32 := by
  obtain ⟨F, r, -, -, -, -, hids⟩ := h.nodes
  by_contra hlt
  have hmem : 2 ^ 32 ∈ r.ids.map Key.slot := by
    rw [hids, List.mem_range]
    omega
  obtain ⟨key, -, hkey⟩ := List.mem_map.mp hmem
  have := key.index.toNat_lt
  change key.index.toNat = _ at hkey
  omega

/-- **The slots hold the nodes of the shape in pre-order.** -/
theorem map_kind_slots (h : tree.Numbered shape) :
    tree.nodes.slots.map (Option.map Node.kind) = shape.ids := by
  obtain ⟨F, r, hF, -, -, rfl, hids⟩ := h.nodes
  have hslots : tree.nodes.slots =
      (List.range tree.nodes.slots.length).map fun i => (tree.nodes.slots[i]?).join := by
    refine List.ext_getElem (by simp) fun i hi _ => ?_
    simp [hi]
  rw [hslots, ← hids, List.map_map, List.map_map, Rose.ids_map]
  refine List.map_congr_left fun key _ => ?_
  have hget : tree.nodes.get key = (F.label key).map (nodeOf F key) := hF key
  change (tree.nodes.get key).map Node.kind = F.label key
  rw [hget, Option.map_map]
  exact Option.map_id'

/-- **What a numbered tree looks like determines its nodes**, with all their links, and its root. -/
theorem nodes_eq (h : tree.Numbered shape) (h' : tree'.Numbered shape) :
    tree'.nodes = tree.nodes ∧ tree'.root = tree.root := by
  have hlength : tree'.nodes.slots.length = tree.nodes.slots.length := by
    rw [h.length_slots, h'.length_slots]
  obtain ⟨F, r, hF, hr, hroot, hmap, hids⟩ := h.nodes
  obtain ⟨G, r', hG, hr', hroot', hmap', hids'⟩ := h'.nodes
  rw [hlength, ← hids] at hids'
  -- the two rose trees have the same shape and the same pre-order
  have hslot : Function.Injective Key.slot := fun k k' hk => Key.slot_inj.mp hk
  obtain rfl : r = r' := by
    refine Rose.eq_of_map_of_ids r r' (hmap.trans hmap'.symm) ?_
    exact (List.map_injective_iff.mpr hslot hids').symm
  -- every live node is one of them
  have hlive : ∀ {t : Tree} {H : OrderedForest NodeId NodeType}, t.Represents H →
      t.nodes.WellFormed → t.nodes.free = [] →
      t.nodes.slots.length = tree.nodes.slots.length →
      ∀ m, (H.label m).isSome → m ∈ r.ids := by
    intro t H hH hslab hfree hlength m hm
    have hlt := (hH.filled hslab hfree m).mp hm
    rw [hlength, ← List.mem_range, ← hids] at hlt
    obtain ⟨k, hk, heq⟩ := List.mem_map.mp hlt
    rwa [← hslot heq]
  obtain rfl : F = G := OrderedForest.eq_of_spans hr hr' (hmap.trans hmap'.symm)
    (hlive hF h.slab h.free_eq rfl) (hlive hG h'.slab h'.free_eq hlength)
  refine ⟨?_, hroot'.symm.trans hroot⟩
  refine h.slab.eq_of_get h.free_eq h'.free_eq hlength h.length_slots_le fun key => ?_
  rw [hF key, hG key]

end Tree.Numbered

end Sexp
