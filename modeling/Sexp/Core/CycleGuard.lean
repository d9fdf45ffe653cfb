import Sexp.Core.Refinement

/-! # The cycle guard

What `would_create_cycle` answers: for an attached child it searches the ancestors of the parent,
for a parentless child it compares the two ids. On a consistent tree it terminates; its answer is
exact unless the child is parentless and a proper ancestor of the parent. -/

namespace Sexp

open Library (OrderedForest Answers LoopAnswers FuelMono Pass)

variable {tree : Tree} {F : OrderedForest NodeId NodeType} {fuel : Nat} {parent child : NodeId}

/-- More fuel does not change the answer of the guard. -/
theorem wouldCreateCycle_mono (tree : Tree) (parent child : NodeId) :
    FuelMono fun fuel => wouldCreateCycle fuel tree parent child := by
  refine FuelMono.bind (.const _) fun n => ?_
  by_cases hn : n.parent.isNone = true
  · simp only [if_pos hn]
    exact FuelMono.const _
  · simp only [if_neg hn]
    exact FuelMono.iterate_const _ _

/-- **What the guard answers.** For a parentless child it compares the ids; otherwise it decides
whether the child is the parent or an ancestor of it. -/
theorem wouldCreateCycle_ok {answer : Bool}
    (h : wouldCreateCycle fuel tree parent child = .ok answer) :
    tree.Live child ∧
      (tree.parentOf child = none → answer = decide (parent = child)) ∧
      (tree.parentOf child ≠ none →
        (answer = true ↔ tree.AncestorOrSelf child parent)) := by
  rw [wouldCreateCycle] at h
  obtain ⟨n, hn, h⟩ := Library.bind_eq_ok.mp h
  have hget := Slab.index_eq_ok.mp hn
  have hparentOf : tree.parentOf child = n.parent := by simp [Tree.parentOf, hget]
  refine ⟨by simp [Tree.Live, hget], ?_⟩
  rw [hparentOf]
  by_cases hnone : n.parent = none
  · rw [if_pos (by simp [hnone])] at h
    refine ⟨fun _ => ?_, fun hne => absurd hnone hne⟩
    simpa [eq_comm, beq_eq_decide] using h
  · rw [if_neg (by simpa using hnone)] at h
    refine ⟨fun heq => absurd heq hnone, fun _ => ?_⟩
    -- the cursor is an ancestor of the parent, and the child is still ahead if it is one
    refine Library.iterate_invariant
      (fun cursor => (∀ id, cursor = some id → tree.AncestorOrSelf id parent) ∧
        (tree.AncestorOrSelf child parent → ∃ id, cursor = some id ∧
          tree.AncestorOrSelf child id))
      (fun answer => answer = true ↔ tree.AncestorOrSelf child parent) ?_ ?_ ?_ h
    · rintro (_ | id) s' ⟨hup, hahead⟩ hpass
      · simp at hpass
      · by_cases hid : id = child
        · simp [hid] at hpass
        · simp only [if_neg hid] at hpass
          obtain ⟨m, hm, hs'⟩ := Library.bind_eq_ok.mp hpass
          obtain rfl : m.parent = s' := by simpa using hs'
          have hmget := Slab.index_eq_ok.mp hm
          have hedge : ∀ {q}, m.parent = some q ↔ tree.Edge q id := by
            intro q
            simp [Tree.Edge, Tree.parentOf, hmget]
          refine ⟨fun q hq => .head (hedge.mp hq) (hup id rfl), fun hanc => ?_⟩
          obtain ⟨id', hid', hchild⟩ := hahead hanc
          obtain rfl : id = id' := by simpa using hid'
          rcases Relation.ReflTransGen.cases_tail hchild with heq | ⟨q, hq, hqid⟩
          · exact absurd heq hid
          · exact ⟨q, hedge.mpr hqid, hq⟩
    · rintro (_ | id) answer ⟨hup, hahead⟩ hpass
      · obtain rfl : false = answer := by simpa using hpass
        refine iff_of_false (by simp) fun hanc => ?_
        obtain ⟨id, hid, -⟩ := hahead hanc
        simp at hid
      · by_cases hid : id = child
        · obtain rfl : true = answer := by simpa [hid] using hpass
          exact iff_of_true rfl (hid ▸ hup id rfl)
        · simp only [if_neg hid] at hpass
          obtain ⟨m, -, hs'⟩ := Library.bind_eq_ok.mp hpass
          simp at hs'
    · exact ⟨fun id hid => (Option.some.inj hid) ▸ .refl, fun hanc => ⟨parent, rfl, hanc⟩⟩

/-- One pass of the loop of the guard, which goes from a node to its parent. -/
def ancestorPass (tree : Tree) (child : NodeId) : Option NodeId → Exec (Pass (Option NodeId) Bool)
  | none => return .leave false
  | some id => do
      if id = child then return .leave true
      else return .again (← tree.nodes.index id).parent

/-- **The loop of the guard ends** at every live node of a tree that represents a forest. -/
theorem ancestorPass_answers (h : tree.Represents F) (hparent : tree.Live parent) :
    ∃ answer, LoopAnswers .outOfFuel (fun _ => ancestorPass tree child) (some parent) answer := by
  -- induction along the parent chain
  induction parent using F.wellFounded_up.induction with
  | _ id ih =>
      by_cases hid : id = child
      · exact ⟨true, .leave (.const fun _ => by simp [ancestorPass, hid])⟩
      · obtain ⟨m, hm⟩ := Option.isSome_iff_exists.mp hparent
        have hpass : ancestorPass tree child (some id) = .ok (.again m.parent) := by
          rw [ancestorPass, if_neg hid, Slab.index_eq_ok.mpr hm]
          rfl
        rcases hm' : m.parent with _ | q
        · exact ⟨false, .again (.const fun _ => hm' ▸ hpass) (.leave (.const fun _ => rfl))⟩
        · have hedge : F.Edge q id := by
            rw [← h.edge_eq, Tree.Edge, Tree.parentOf, hm]
            exact hm'
          obtain ⟨answer, hanswer⟩ := ih q hedge (h.live_iff.mpr (F.live_parent hedge))
          exact ⟨answer, .again (.const fun _ => hm' ▸ hpass) hanswer⟩

/-- The guard terminates on a tree that represents a forest. -/
theorem wouldCreateCycle_terminates (h : tree.Represents F) (hparent : tree.Live parent)
    (hchild : tree.Live child) :
    ∃ answer, Answers (fun fuel => wouldCreateCycle fuel tree parent child) answer := by
  obtain ⟨n, hn⟩ := Option.isSome_iff_exists.mp hchild
  have hget : tree.nodes.index child = .ok n := Slab.index_eq_ok.mpr hn
  by_cases hnone : n.parent.isNone = true
  · refine ⟨parent == child, .bind (.const fun _ => hget) (.const fun _ => ?_)⟩
    simp [hnone]
  · obtain ⟨answer, hanswer⟩ := ancestorPass_answers h hparent
    refine ⟨answer, .bind (.const fun _ => hget) ?_⟩
    simp only [if_neg hnone]
    exact hanswer.answers

/-- **The answer of the guard on a tree that represents a forest.** -/
theorem wouldCreateCycle_answers (h : tree.Represents F) (hparent : tree.Live parent)
    (hchild : tree.Live child) :
    ∃ answer, Answers (fun fuel => wouldCreateCycle fuel tree parent child) answer ∧
      (answer = true ↔ parent = child ∨
        (F.parent child ≠ none ∧ parent ∈ F.subtree child)) := by
  obtain ⟨answer, hanswer⟩ := wouldCreateCycle_terminates h hparent hchild
  refine ⟨answer, hanswer, ?_⟩
  obtain ⟨fuel, hfuel⟩ := hanswer.exists_fuel
  obtain ⟨-, hnone, hsome⟩ := wouldCreateCycle_ok hfuel
  rw [h.parentOf_eq] at hnone hsome
  by_cases hp : F.parent child = none
  · -- the fast path, which does not look at the ancestors
    rw [hnone hp]
    simp [hp]
  · -- the walk up from the parent
    rw [hsome hp, h.ancestorOrSelf_iff]
    refine ⟨fun hmem => .inr ⟨hp, hmem⟩, ?_⟩
    rintro (rfl | ⟨-, hmem⟩)
    · exact OrderedForest.self_mem_subtree
    · exact hmem

/-- **The blind spot of the guard**: a parentless child that is a proper ancestor of the parent. -/
def Tree.BlindSpot (tree : Tree) (parent child : NodeId) : Prop :=
  tree.parentOf child = none ∧ parent ≠ child ∧ tree.AncestorOrSelf child parent

/-- **The guard is exact** on a pair: it answers, and decides whether the child is the parent or an
ancestor of it. -/
def GuardExact (tree : Tree) (parent child : NodeId) : Prop :=
  ∃ answer, Answers (fun fuel => wouldCreateCycle fuel tree parent child) answer ∧
    (answer = true ↔ tree.AncestorOrSelf child parent)

/-- **The guard is exact outside of its blind spot, and only there.** -/
theorem guardExact_iff (h : tree.Represents F) (hparent : tree.Live parent)
    (hchild : tree.Live child) :
    GuardExact tree parent child ↔ ¬ tree.BlindSpot parent child := by
  obtain ⟨answer, hanswer, hiff⟩ := wouldCreateCycle_answers h hparent hchild
  unfold Tree.BlindSpot
  rw [h.parentOf_eq, h.ancestorOrSelf_iff]
  constructor
  · rintro ⟨answer', hanswer', hexact⟩ ⟨hnone, hne, hmem⟩
    obtain rfl := hanswer.unique hanswer'
    rw [h.ancestorOrSelf_iff] at hexact
    -- the guard compares the ids, and so misses the ancestor
    rcases hiff.mp (hexact.mpr hmem) with heq | ⟨hsome, -⟩
    · exact hne heq
    · exact hsome hnone
  · intro hblind
    refine ⟨answer, hanswer, hiff.trans ?_⟩
    rw [h.ancestorOrSelf_iff]
    constructor
    · rintro (rfl | ⟨-, hmem⟩)
      · exact OrderedForest.self_mem_subtree
      · exact hmem
    · intro hmem
      by_cases heq : parent = child
      · exact .inl heq
      · exact .inr ⟨fun hnone => hblind ⟨hnone, heq, hmem⟩, hmem⟩

/-- Outside of its blind spot, the guard stops every attachment that would create a cycle. -/
theorem not_ancestorOrSelf_of_guard (h : wouldCreateCycle fuel tree parent child = .ok false)
    (hblind : ¬ tree.BlindSpot parent child) : ¬ tree.AncestorOrSelf child parent := by
  obtain ⟨-, hnone, hsome⟩ := wouldCreateCycle_ok h
  intro hancestor
  by_cases hparent : tree.parentOf child = none
  · have hne : parent ≠ child := of_decide_eq_false (hnone hparent).symm
    exact hblind ⟨hparent, hne, hancestor⟩
  · simpa using (hsome hparent).mpr hancestor

/-- The guard lets every attachment pass that would not create a cycle. -/
theorem wouldCreateCycle_answers_false (h : tree.Represents F) (hparent : tree.Live parent)
    (hchild : tree.Live child) (hbelow : parent ∉ F.subtree child) :
    Answers (fun fuel => wouldCreateCycle fuel tree parent child) false := by
  obtain ⟨answer, hanswer, hiff⟩ := wouldCreateCycle_answers h hparent hchild
  rcases answer with _ | _
  · exact hanswer
  · rcases hiff.mp rfl with rfl | ⟨-, hmem⟩
    · exact absurd OrderedForest.self_mem_subtree hbelow
    · exact absurd hmem hbelow

end Sexp
