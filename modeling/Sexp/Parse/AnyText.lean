import Sexp.Core.Contents
import Sexp.Parse.Correctness

/-! # Parsing any text

What is known of a tree that `parse` returns for a text of any length. Its free list is consistent
and nothing is cached. When it has at most `2 ^ 32` slots, so had the text at most as many nodes:
the tree is the bare empty list or spells a form. -/

namespace Sexp

open Library (nodeCount)

variable {fuel : Nat}

/-! ## The loop reads the token sequence -/

/-- What the loop of the parser answers is what the token sequence gives. -/
theorem parsePass_run {cs : List Char} {building : Building} {result : Except ParseError Building}
    (h : whileLoop fuel (⟨String.ofList cs⟩, building) parsePass = .ok result) :
    building.run (lex cs) = .ok result := by
  -- induction on the fuel: a pass that goes on has read one token
  induction fuel generalizing cs building with
  | zero => cases h
  | succ fuel ih =>
      have hnext : Tokenizer.next ⟨String.ofList cs⟩ = .ok (lexNext cs) := by
        rw [next_eq, String.toList_ofList]
      rcases hstep : lexStep cs with _ | ⟨token, rest⟩
      · -- no token is left
        rw [lexNext, hstep] at hnext
        have hpass : parsePass (⟨String.ofList cs⟩, building) = .ok (.leave (.ok building)) := by
          rw [parsePass, hnext]
          rfl
        rw [lex_of_none hstep]
        rwa [whileLoop, Library.iterate_leave fuel hpass] at h
      · rw [lexNext, hstep] at hnext
        rw [lex_of_some hstep, Building.run]
        rcases htoken : building.token token with fault | error | building'
        · have hpass : parsePass (⟨String.ofList cs⟩, building) = .error fault := by
            rw [parsePass, hnext, Library.ok_bind]
            simp only [htoken, Library.error_bind]
          simp [whileLoop, Library.iterate, hpass] at h
        · have hpass : parsePass (⟨String.ofList cs⟩, building) =
              .ok (.leave (.error error)) := by
            rw [parsePass, hnext, Library.ok_bind]
            simp only [htoken, Library.ok_bind]
            rfl
          rwa [whileLoop, Library.iterate_leave fuel hpass] at h
        · have hpass : parsePass (⟨String.ofList cs⟩, building) =
              .ok (.again (⟨String.ofList rest⟩, building')) := by
            rw [parsePass, hnext, Library.ok_bind]
            simp only [htoken, Library.ok_bind]
            rfl
          rw [whileLoop, Library.iterate_again fuel hpass] at h
          exact ih h

/-! ## The slab under construction -/

namespace Building

variable {building building' : Building}

/-- **A token sequence takes one slot for each of its nodes.** -/
theorem run_dense {ts : List Token} (hrun : new.run ts = .ok (.ok building)) :
    building.Dense ∧ building.nodes.slots.length = nodeCount ts := by
  rcases hread : Library.read [] [] ts with _ | ⟨current, outer⟩
  · have hstray := run_stray inStep_new hread
    rw [hrun] at hstray
    cases hstray
  · obtain ⟨b, hrun', hstep, hlength⟩ := run_of_read inStep_new hread
    have hnil := hrun' []
    rw [List.append_nil, hrun] at hnil
    cases hnil
    exact ⟨hstep.toDense, hlength.trans (Nat.zero_add _)⟩

/-- The content of every node satisfies `P`. -/
def Contents (P : NodeType → Prop) (building : Building) : Prop :=
  ∀ id m, building.nodes.get id = some m → P m.kind

/-- Adding a node adds one content. -/
theorem add_contents {P : NodeType → Prop} {node : Node} {id : NodeId} (h : building.Contents P)
    (hnode : P node.kind) (hadd : building.add node = .ok (building', id)) :
    building'.Contents P := by
  obtain ⟨⟨nodes, id'⟩, hinsert, hadd⟩ := Library.bind_eq_ok.mp hadd
  have hnodes : ∀ k m, nodes.get k = some m → P m.kind := by
    intro k m hm
    rcases Slab.get_insert_cases hinsert hm with rfl | hold
    · exact hnode
    · exact h k m hold
  rcases hopen : building.openLists with _ | ⟨p, ps⟩
  · rw [hopen] at hadd
    cases hadd
    exact hnodes
  · rw [hopen] at hadd
    obtain ⟨linked, hlink, hpure⟩ := Library.bind_eq_ok.mp hadd
    cases hpure
    obtain ⟨_, -, hrewrites⟩ := linkChild_ok hlink
    intro k m hm
    -- linking keeps the content of every node
    have hget : linked.get k = some m := hm
    rw [hrewrites.get_eq, Option.map_eq_some_iff] at hget
    obtain ⟨old, hold, rfl⟩ := hget
    exact hnodes k old hold

/-- **The contents of a slab under construction** are lists and the atoms of the tokens read. -/
theorem run_contents {P : NodeType → Prop} {ts : List Token} (h : building.Contents P)
    (hlist : P .list) (hatom : ∀ value, .atom value ∈ ts → P (.atom (Atom.new value)))
    (hrun : building.run ts = .ok (.ok building')) : building'.Contents P := by
  -- induction on the tokens; a token adds one node at most, a list or its atom
  induction ts generalizing building with
  | nil =>
      cases hrun
      exact h
  | cons t ts ih =>
      obtain ⟨outcome, htoken, hrest⟩ := Library.bind_eq_ok.mp hrun
      rcases outcome with error | b
      · cases hrest
      · refine ih ?_ (fun value hvalue => hatom value (List.mem_cons_of_mem t hvalue)) hrest
        cases t with
        | leftParen =>
            obtain ⟨⟨b', id⟩, hadd, hpure⟩ := Library.bind_eq_ok.mp htoken
            cases hpure
            have hadded : b'.Contents P := add_contents h hlist hadd
            exact hadded
        | rightParen =>
            rcases hopen : building.openLists with _ | ⟨p, ps⟩
            · rw [token, hopen] at htoken
              cases htoken
            · rw [token, hopen] at htoken
              cases htoken
              exact h
        | atom value =>
            obtain ⟨⟨b', id⟩, hadd, hpure⟩ := Library.bind_eq_ok.mp htoken
            cases hpure
            exact add_contents h (hatom value List.mem_cons_self) hadd

end Building

/-! ## The result -/

/-- **A tree that `parse` returns** is the bare empty list, or is made of the slab that the token
sequence gives. -/
theorem parse_run {s : String} {tree : Tree} (h : parse fuel s = .ok (.ok tree)) :
    Tree.newBare = .ok tree ∨ ∃ (building : Building) (root : NodeId),
      tree = Tree.fromRaw building.nodes root ∧
      Building.new.run (tokensOf s) = .ok (.ok building) := by
  unfold parse at h
  obtain ⟨outcome, hloop, hfinish⟩ := Library.bind_eq_ok.mp h
  rcases outcome with error | building
  · cases hfinish
  · have hrun : Building.new.run (tokensOf s) = .ok (.ok building) :=
      parsePass_run (by rwa [String.ofList_toList])
    change building.finish = _ at hfinish
    unfold Building.finish at hfinish
    -- a text is accepted when no list is open and there is at most one form
    split at hfinish
    · rcases htop : building.topLevel with _ | ⟨root, _ | ⟨_, _⟩⟩
      · rw [htop] at hfinish
        obtain ⟨tree', hbare, hpure⟩ := Library.bind_eq_ok.mp hfinish
        cases hpure
        exact .inl hbare
      · rw [htop] at hfinish
        cases hfinish
        exact .inr ⟨building, root, rfl, hrun⟩
      · rw [htop] at hfinish
        cases hfinish
    · cases hfinish

/-- The slab of a tree that `parse` returns is dense, and has a slot for each node of the text. -/
theorem parse_ok {s : String} {tree : Tree} (h : parse fuel s = .ok (.ok tree)) :
    Tree.newBare = .ok tree ∨ ∃ (building : Building) (root : NodeId),
      tree = Tree.fromRaw building.nodes root ∧ building.Dense ∧
      building.nodes.slots.length = nodeCount (tokensOf s) := by
  rcases parse_run h with hbare | ⟨building, root, rfl, hrun⟩
  · exact .inl hbare
  · exact .inr ⟨building, root, rfl, Building.run_dense hrun⟩

/-- The implicit tree of an empty text is a single list. -/
theorem newBare_eq {tree : Tree} (h : Tree.newBare = .ok tree) :
    tree = { Tree.fromRaw ⟨[some (Node.unlinked .list)], []⟩ ⟨0⟩ with bare := true } := by
  cases h
  rfl

/-- **Whatever is parsed**, its contents are lists and the atoms of the tokens. -/
theorem parse_contents {s : String} {tree : Tree} {P : NodeType → Prop} (hlist : P .list)
    (hatom : ∀ value, .atom value ∈ tokensOf s → P (.atom (Atom.new value)))
    (h : parse fuel s = .ok (.ok tree)) : tree.Contents P := by
  rcases parse_run h with hbare | ⟨building, root, rfl, hrun⟩
  · rw [newBare_eq hbare]
    exact (contents_single hlist).of_nodes_eq rfl
  · have hnew : Building.new.Contents P := fun id m hm => by cases hm
    exact Building.run_contents hnew hlist hatom hrun

/-- **Whatever is parsed**, the free list is consistent. -/
theorem parse_slab {s : String} {tree : Tree} (h : parse fuel s = .ok (.ok tree)) :
    tree.nodes.WellFormed := by
  rcases parse_ok h with hbare | ⟨building, root, rfl, hdense, -⟩
  · rw [newBare_eq hbare]
    exact (wellFormed_single .list).slab
  · exact hdense.slab

/-- **Whatever is parsed**, nothing is cached. -/
theorem parse_reprCache {s : String} {tree : Tree} (h : parse fuel s = .ok (.ok tree)) :
    tree.reprCache = none := by
  rcases parse_ok h with hbare | ⟨building, root, rfl, -, -⟩
  · rw [newBare_eq hbare]
    rfl
  · rfl

/-- **The tree of a text of at most `2 ^ 32` nodes** is the bare empty list, or spells a form. -/
theorem parse_tree {s : String} {tree : Tree} (h : parse fuel s = .ok (.ok tree))
    (hfits : tree.nodes.slots.length ≤ 2 ^ 32) :
    Tree.newBare = .ok tree ∨ ∃ form, tree.Spells form := by
  rcases parse_ok h with hbare | ⟨building, root, rfl, hdense, hlength⟩
  · exact .inl hbare
  have hnodes : nodeCount (tokensOf s) ≤ 2 ^ 32 := hlength ▸ hfits
  rcases shape (tokensOf s) with hstray | ⟨hstray, hdepth⟩ | ⟨forms, hforms⟩
  · cases (parse_stray hstray).eq_of_ok (parse_mono s) h
  · cases (parse_unclosed hstray hdepth).eq_of_ok (parse_mono s) h
  · rw [hforms, Library.nodeCount_tokensAll] at hnodes
    match forms with
    | [] =>
        obtain ⟨tree', hbare⟩ : ∃ tree, Tree.newBare = .ok tree := ⟨_, rfl⟩
        cases (parse_empty (by simpa using hforms) hbare).eq_of_ok (parse_mono s) h
        exact .inl hbare
    | [form] =>
        obtain ⟨tree', hanswers, hspells⟩ :=
          parse_form (by simpa using hforms) (by simpa using hnodes)
        cases hanswers.eq_of_ok (parse_mono s) h
        exact .inr ⟨form, hspells⟩
    | _ :: _ :: _ => cases (parse_multiple hforms (by simp)).eq_of_ok (parse_mono s) h

/-- A parsed tree of at most `2 ^ 32` slots is well-formed, and its root has no parent. -/
theorem parse_wellFormed {s : String} {tree : Tree} (h : parse fuel s = .ok (.ok tree))
    (hfits : tree.nodes.slots.length ≤ 2 ^ 32) :
    tree.WellFormed ∧ tree.parentOf tree.root = none := by
  rcases parse_tree h hfits with hbare | ⟨form, hspells⟩
  · rw [newBare_eq hbare]
    -- the nodes are those of a single list; only the flag differs
    have hrep : ({ Tree.fromRaw ⟨[some (Node.unlinked .list)], []⟩ ⟨0⟩ with
        bare := true } : Tree).Represents _ := fun id => represents_single .list id
    exact ⟨⟨hrep.consistent (wellFormed_single .list).slab, rfl⟩, rfl⟩
  · exact ⟨hspells.wellFormed, hspells.root_parentless⟩

end Sexp
