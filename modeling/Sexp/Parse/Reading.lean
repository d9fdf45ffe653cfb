import Sexp.Core.Contents
import Sexp.Parse.Construction

/-! # The parser keeps step with reading

Which texts are accepted, and with what errors the others are rejected, depends on the stack of open
lists and on the top-level forms only. Both follow the reading of the token sequence with a stack of
forms (`Building.run_of_read`, `Building.run_stray`), however long it is: from `2 ^ 32` nodes on
keys are given out again and the links go astray, but they never leave the live nodes. -/

namespace Sexp

open Library (Form nodeCount)

/-- In a consistent slab without free slots every slot is live. -/
theorem Slab.WellFormed.live_of_lt {α : Type} {slab : Slab α} {key : Key} (h : slab.WellFormed)
    (hfree : slab.free = []) (hlt : key.slot < slab.slots.length) : (slab.get key).isSome := by
  rcases hslot : slab.slots[key.slot]? with _ | (_ | v)
  · have hge := List.getElem?_eq_none_iff.mp hslot
    omega
  · obtain ⟨idx, hidx, -⟩ := (h.mem_free _).mp hslot
    rw [hfree] at hidx
    cases hidx
  · simp [Slab.get, hslot]

namespace Building

variable {building building' : Building} {node : Node} {id : NodeId}

/-! ## The slab under construction -/

/-- **A slab under construction**: its free list is consistent and empty. -/
structure Dense (building : Building) : Prop where
  /-- The free list is consistent. -/
  slab : building.nodes.WellFormed
  /-- No slot is free. -/
  free_eq : building.nodes.free = []

/-- The slab is dense before the first token. -/
theorem dense_new : new.Dense := ⟨Slab.wellFormed_new, rfl⟩

/-- **Between two tokens**, however many came before: the slab is dense, and the nodes that the next
token may write to are live. -/
structure Anchored (building : Building) : Prop extends Dense building where
  /-- The open lists are live. -/
  open_live : ∀ p ∈ building.openLists, (building.nodes.get p).isSome
  /-- Last children are live. -/
  last_live : ∀ k n q, building.nodes.get k = some n → n.lastChild = some q →
    (building.nodes.get q).isSome

/-- Nothing is open before the first token. -/
theorem anchored_new : new.Anchored where
  toDense := dense_new
  open_live p hp := by cases hp
  last_live k n q hn := by cases hn

/-- **Inserting a node** in a dense slab: its key is live, also when it was given out before, and
live keys stay live. -/
theorem Anchored.insert (h : building.Anchored) (hnode : node.lastChild = none) :
    ∃ nodes id, building.nodes.insert node = .ok (nodes, id) ∧
      ({ building with nodes } : Building).Anchored ∧ (nodes.get id).isSome ∧
      nodes.slots.length = building.nodes.slots.length + 1 := by
  obtain ⟨nodes, id, hinsert, hslab⟩ := h.slab.insert node
  obtain ⟨hfree, hlength⟩ := Slab.insert_of_free_eq_nil h.free_eq hinsert
  have hkeep : ∀ k, (building.nodes.get k).isSome → (nodes.get k).isSome := by
    intro k hk
    obtain ⟨n, hn⟩ := Option.isSome_iff_exists.mp hk
    rw [Slab.get_insert_of_live h.slab hinsert hn]
    rfl
  have hkey : (nodes.get id).isSome := by
    apply hslab.live_of_lt hfree
    -- the offset of the new slot, cut to 32 bits
    have hid : id = ⟨UInt32.ofNat building.nodes.slots.length⟩ := by
      rw [Slab.insert, h.free_eq, Except.ok.injEq, Prod.mk.injEq] at hinsert
      exact hinsert.2.symm
    have hslot : id.slot = building.nodes.slots.length % 2 ^ 32 := by
      rw [hid, Key.slot, UInt32.toNat_ofNat']
    have hle := Nat.mod_le building.nodes.slots.length (2 ^ 32)
    omega
  refine ⟨nodes, id, hinsert, ⟨⟨hslab, hfree⟩, fun p hp => hkeep p (h.open_live p hp), ?_⟩, hkey,
    hlength⟩
  intro k n q hn hq
  rcases Slab.get_insert_cases hinsert hn with rfl | hold
  · rw [hnode] at hq
    cases hq
  · exact hkeep q (h.last_live k n q hold hq)

/-- **Linking a live node** below an open list succeeds, and keeps every node live. -/
theorem Anchored.linkChild (h : building.Anchored) {p : NodeId} (hp : p ∈ building.openLists)
    (hid : (building.nodes.get id).isSome) :
    ∃ nodes, Sexp.linkChild building.nodes p id = .ok nodes ∧
      ({ building with nodes } : Building).Anchored ∧ (nodes.get id).isSome ∧
      nodes.slots.length = building.nodes.slots.length := by
  obtain ⟨n, hn⟩ := Option.isSome_iff_exists.mp (h.open_live p hp)
  obtain ⟨nodes, hlink⟩ := linkChild_total hn hid fun q hq => h.last_live p n q hn hq
  obtain ⟨m, -, hrewrites⟩ := linkChild_ok hlink
  have hlive : ∀ k, (nodes.get k).isSome = (building.nodes.get k).isSome := hrewrites.isSome_iff
  have hdense : ({ building with nodes } : Building).Dense :=
    ⟨hrewrites.wellFormed h.slab, hrewrites.free_eq.trans h.free_eq⟩
  refine ⟨nodes, hlink, ⟨hdense, fun q hq => ?_, ?_⟩, (hlive id).trans hid, hrewrites.length_eq⟩
  · exact (hlive q).trans (h.open_live q hq)
  · intro k m q hm hq
    show (nodes.get q).isSome
    -- the last child of the open list is the new node, the other last children are kept
    have hget : nodes.get k = some m := hm
    rw [hrewrites.get_eq, Option.map_eq_some_iff] at hget
    obtain ⟨old, hold, rfl⟩ := hget
    rw [hlive]
    by_cases hk : k = p
    · obtain rfl : id = q := by simpa [Node.linkStep, hk] using hq
      exact hid
    · exact h.last_live k old q hold (by simpa [Node.linkStep, hk] using hq)

/-- **Adding a node always succeeds**, and records it as a top-level form iff no list is open. -/
theorem Anchored.add (h : building.Anchored) (hnode : node.lastChild = none) :
    ∃ building' id, building.add node = .ok (building', id) ∧ building'.Anchored ∧
      (building'.nodes.get id).isSome ∧ building'.openLists = building.openLists ∧
      building'.topLevel = building.topLevel ++ (if building.openLists = [] then [id] else []) ∧
      building'.nodes.slots.length = building.nodes.slots.length + 1 := by
  obtain ⟨nodes, id, hinsert, hinserted, hid, hlength⟩ := h.insert hnode
  rw [Building.add, hinsert, Library.ok_bind]
  rcases hopen : building.openLists with _ | ⟨p, ps⟩
  · refine ⟨_, id, rfl, ?_, hid, rfl, rfl, hlength⟩
    exact ⟨⟨hinserted.slab, hinserted.free_eq⟩, fun p hp => absurd hp List.not_mem_nil,
      hinserted.last_live⟩
  · obtain ⟨nodes', hlink, hlinked, hid', hlength'⟩ :=
      hinserted.linkChild (by simp [hopen] : p ∈ building.openLists) hid
    rw [hopen] at hlinked
    refine ⟨_, id, ?_, hlinked, hid', rfl, by simp, hlength'.trans hlength⟩
    simp only [hlink, Library.ok_bind]
    rfl

/-! ## In step with the forms read -/

/-- **The number of top-level forms**, of which the last one may still be read: `current` holds the
forms read so far in the innermost open list, and the other argument those of the lists around
it. -/
def topForms (current : List (Form String)) : List (List (Form String)) → ℕ
  | [] => current.length
  | forms :: outer => topForms forms outer + if outer = [] then 1 else 0

variable {current current' : List (Form String)} {outer outer' : List (List (Form String))}

/-- A form outside of lists is a top-level form. -/
theorem topForms_cons (form : Form String) (current : List (Form String))
    (outer : List (List (Form String))) :
    topForms (form :: current) outer = topForms current outer + if outer = [] then 1 else 0 := by
  cases outer <;> rfl

/-- **The parser is in step with the reading**: as many lists are open, and as many top-level forms
have been started. -/
structure InStep (building : Building) (current : List (Form String))
    (outer : List (List (Form String))) : Prop extends Anchored building where
  /-- As many lists are open. -/
  open_eq : building.openLists.length = outer.length
  /-- As many top-level forms have been started. -/
  top_eq : building.topLevel.length = topForms current outer

/-- The parser starts in step. -/
theorem inStep_new : new.InStep [] [] := ⟨anchored_new, rfl, rfl⟩

namespace InStep

/-- No list is open iff none is read. -/
theorem open_nil_iff (h : building.InStep current outer) :
    building.openLists = [] ↔ outer = [] := by
  rw [← List.length_eq_zero_iff, h.open_eq, List.length_eq_zero_iff]

/-- **A new node** starts a top-level form iff no list is open. -/
theorem add (h : building.InStep current outer) (hnode : node.lastChild = none) :
    ∃ building' id, building.add node = .ok (building', id) ∧ building'.Anchored ∧
      (building'.nodes.get id).isSome ∧ building'.openLists = building.openLists ∧
      building'.topLevel.length = topForms current outer + (if outer = [] then 1 else 0) ∧
      building'.nodes.slots.length = building.nodes.slots.length + 1 := by
  obtain ⟨b, id, hadd, hanchored, hid, hopen, htop, hlength⟩ := h.toAnchored.add hnode
  refine ⟨b, id, hadd, hanchored, hid, hopen, ?_, hlength⟩
  rw [htop, List.length_append, h.top_eq]
  simp only [h.open_nil_iff]
  split <;> rfl

/-- An opening parenthesis. -/
theorem leftParen (h : building.InStep current outer) :
    ∃ building', building.token .leftParen = .ok (.ok building') ∧
      building'.InStep [] (current :: outer) ∧
      building'.nodes.slots.length = building.nodes.slots.length + 1 := by
  obtain ⟨b, id, hadd, hanchored, hid, hopen, htop, hlength⟩ :=
    h.add (rfl : Node.newList.lastChild = none)
  refine ⟨{ b with openLists := id :: b.openLists }, ?_, ⟨⟨⟨hanchored.slab, hanchored.free_eq⟩, ?_,
    hanchored.last_live⟩, ?_, ?_⟩, hlength⟩
  · rw [token, hadd]
    rfl
  · intro p hp
    rcases List.mem_cons.mp hp with rfl | hp
    · exact hid
    · exact hanchored.open_live p hp
  · rw [List.length_cons, List.length_cons, hopen, h.open_eq]
  · exact htop

/-- An atom. -/
theorem atom (h : building.InStep current outer) (value : String) :
    ∃ building', building.token (.atom value) = .ok (.ok building') ∧
      building'.InStep (.atom value :: current) outer ∧
      building'.nodes.slots.length = building.nodes.slots.length + 1 := by
  obtain ⟨b, id, hadd, hanchored, -, hopen, htop, hlength⟩ :=
    h.add (rfl : (Node.newAtom (Atom.new value)).lastChild = none)
  refine ⟨b, ?_, ⟨hanchored, hopen ▸ h.open_eq, ?_⟩, hlength⟩
  · rw [token, hadd]
    rfl
  · exact htop.trans (topForms_cons _ current outer).symm

/-- A closing parenthesis, when a list is open. -/
theorem rightParen {forms : List (Form String)} (h : building.InStep current (forms :: outer)) :
    ∃ building', building.token .rightParen = .ok (.ok building') ∧
      building'.InStep (.list current.reverse :: forms) outer ∧
      building'.nodes.slots.length = building.nodes.slots.length := by
  rcases hopen : building.openLists with _ | ⟨p, ps⟩
  · cases h.open_nil_iff.mp hopen
  · have hlength := h.open_eq
    rw [hopen, List.length_cons, List.length_cons, Nat.add_right_cancel_iff] at hlength
    refine ⟨{ building with openLists := ps }, ?_, ⟨⟨⟨h.slab, h.free_eq⟩, fun q hq => ?_,
      h.last_live⟩, hlength, ?_⟩, rfl⟩
    · rw [token, hopen]
      rfl
    · exact h.open_live q (by rw [hopen]; exact List.mem_cons_of_mem p hq)
    · exact h.top_eq.trans (topForms_cons _ forms outer).symm

end InStep

/-- **The parser follows the reading** of a token sequence, and takes a slot for each node. -/
theorem run_of_read {ts : List Token} (h : building.InStep current outer)
    (hread : Library.read current outer ts = some (current', outer')) :
    ∃ building' : Building, (∀ us, building.run (ts ++ us) = building'.run us) ∧
      building'.InStep current' outer' ∧
      building'.nodes.slots.length = building.nodes.slots.length + nodeCount ts := by
  -- induction on the tokens; the state after the first one is in step with what is read then
  induction ts generalizing building current outer with
  | nil =>
      simp only [Library.read, Option.some.injEq, Prod.mk.injEq] at hread
      obtain ⟨rfl, rfl⟩ := hread
      exact ⟨building, fun us => rfl, h, rfl⟩
  | cons t ts ih =>
      rcases t with _ | _ | value
      · obtain ⟨b, htoken, hstep, hlength⟩ := h.leftParen
        obtain ⟨b', hrun, hstep', hlength'⟩ := ih hstep hread
        refine ⟨b', fun us => (run_cons htoken _).trans (hrun us), hstep', ?_⟩
        rw [hlength', hlength, Library.nodeCount_leftParen]
        omega
      · rcases outer with _ | ⟨forms, outer⟩
        · cases hread
        · obtain ⟨b, htoken, hstep, hlength⟩ := h.rightParen
          obtain ⟨b', hrun, hstep', hlength'⟩ := ih hstep hread
          refine ⟨b', fun us => (run_cons htoken _).trans (hrun us), hstep', ?_⟩
          rw [hlength', hlength, Library.nodeCount_rightParen]
      · obtain ⟨b, htoken, hstep, hlength⟩ := h.atom value
        obtain ⟨b', hrun, hstep', hlength'⟩ := ih hstep hread
        refine ⟨b', fun us => (run_cons htoken _).trans (hrun us), hstep', ?_⟩
        rw [hlength', hlength, Library.nodeCount_atom]
        omega

/-- **A stray closing parenthesis** is reported when it is read. -/
theorem run_stray {ts : List Token} (h : building.InStep current outer)
    (hread : Library.read current outer ts = none) :
    building.run ts = .ok (.error .strayClosingParenthesis) := by
  obtain ⟨p, rest, forms, rfl, hp⟩ := Library.exists_of_read_eq_none hread
  obtain ⟨b, hrun, hstep, -⟩ := run_of_read h hp
  have hopen : b.openLists = [] := hstep.open_nil_iff.mpr rfl
  rw [hrun, run, token, hopen]
  rfl

end Building

end Sexp
