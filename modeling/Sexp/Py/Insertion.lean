import Sexp.Py.Consistency

/-! # `insert_after` for every sibling

`insert_after` with a fresh receiver and a fresh sibling of the same tree always runs the core
operation (`insertAfter_call`), which trusts the sibling for its links and the receiver for its
child list. Behind a child of the receiver other than the child, it moves the child there. Behind
any other node it neither raises nor leaves the child lists alone: it corrupts the tree or panics
(`insertAfter_sound_iff`). -/

namespace Sexp

open Library (Answers insertRight)

variable {fuel : Nat} {w w' : World} {self after child : HandleRef} {h a x : Handle}
  {tree tree' : Tree}

/-- **The arguments of the call**: a receiver and a sibling of the same tree that are not stale, and
a child of that tree. -/
structure World.Inserting (w : World) (receiver after child : HandleRef) (h a x : Handle)
    (tree : Tree) : Prop where
  /-- The receiver is not stale. -/
  receives : w.Receives receiver h tree
  /-- The sibling. -/
  after_eq : w.handles[after]? = some a
  /-- The sibling belongs to the tree. -/
  after_same : h.tree = a.tree
  /-- The sibling is not stale. -/
  after_fresh : a.isStale tree = false
  /-- The child. -/
  child_eq : w.handles[child]? = some x
  /-- The child belongs to the tree. -/
  child_same : h.tree = x.tree

/-- **The call runs the core operation**: it returns when that does, and writes its tree. -/
theorem insertAfter_call (hargs : w.Inserting self after child h a x tree)
    {r : Except PyErr Value} :
    call fuel (.insertAfter self (some after) child) w = .ok (r, w') ↔
      ∃ tree', insertAfter fuel tree h.node (some a.node) x.node = .ok tree' ∧ r = .ok .none ∧
        w' = w.refreshed self h tree' := by
  have hself := hargs.receives.handle_eq
  -- the code that runs once all checks of the handles have passed
  have hrun : SExp.insertAfter fuel self (some after) child w =
      SExp.withTreeMut self (fun tree node => do
        if (some a).any (·.isStale tree) then return (.error staleError, tree)
        else return (.ok (), ← Sexp.insertAfter fuel tree node ((some a).map Handle.node) x.node))
        w := by
    rw [SExp.insertAfter, SExp.sameTree_apply hself hargs.child_eq hargs.child_same,
      PyM.bind_of_ok (SExp.afterHandle_apply hargs.after_eq hargs.after_same)]
  have hcode : ∀ {result}, (do
        if (some a).any (·.isStale tree) then return (.error staleError, tree)
        else return (.ok (), ← Sexp.insertAfter fuel tree h.node ((some a).map Handle.node) x.node)
        : Exec (Except PyErr Unit × Tree)) = .ok result ↔
      ∃ tree', insertAfter fuel tree h.node (some a.node) x.node = .ok tree' ∧
        result = (.ok (), tree') := by
    intro result
    simp only [Option.any_some, hargs.after_fresh, if_neg Bool.false_ne_true, Option.map_some,
      Library.bind_eq_ok, Library.pure_eq_ok, Except.ok.injEq]
    exact exists_congr fun t => and_congr_right fun _ => eq_comm
  constructor
  · intro hcall
    rcases r with e | v
    · have hraise := PyM.map_eq_error.mp hcall
      rw [hrun] at hraise
      obtain ⟨t, herror⟩ :=
        SExp.error_of_withTreeMut hself hargs.receives.tree_eq hargs.receives.fresh hraise
      obtain ⟨tree', -, hresult⟩ := hcode.mp herror
      cases hresult
    · obtain ⟨u, hreturn, rfl⟩ := PyM.map_eq_ok.mp hcall
      rw [hrun] at hreturn
      obtain ⟨h', t, t', hrec, hok, rfl⟩ := SExp.withTreeMut_eq_ok.mp hreturn
      obtain rfl := Option.some.inj (hself.symm.trans hrec.handle_eq)
      obtain rfl := Option.some.inj (hargs.receives.tree_eq.symm.trans hrec.tree_eq)
      obtain ⟨tree', hinsert, hresult⟩ := hcode.mp hok
      cases hresult
      exact ⟨_, hinsert, rfl, rfl⟩
  · rintro ⟨tree', hinsert, rfl, rfl⟩
    refine PyM.map_eq_ok.mpr ⟨(), ?_, rfl⟩
    rw [hrun]
    exact SExp.withTreeMut_eq_ok.mpr
      ⟨h, tree, tree', hargs.receives, hcode.mpr ⟨tree', hinsert, rfl⟩, rfl⟩

/-! ## What the call promises -/

/-- Two trees with the same child lists. -/
def Tree.SameChildLists (tree tree' : Tree) : Prop :=
  ∃ F G, tree.Represents F ∧ tree'.Represents G ∧ G.children = F.children

/-- **The child is inserted**: the call returns, and its tree is well-formed, with the child moved
right behind the sibling among the children of the receiver. -/
def World.Inserts (w : World) (self after child : HandleRef) (h a x : Handle) (tree : Tree) :
    Prop :=
  ∃ w' tree', Answers (fun fuel => call fuel (.insertAfter self (some after) child) w)
      (.ok .none, w') ∧
    w'.trees[h.tree]? = some tree' ∧ tree'.WellFormed ∧
    tree.Moved tree' h.node x.node (insertRight a.node x.node)

/-- **The call is harmless**: it raises or returns, and its tree is well-formed, with the child
lists from before. -/
def World.Spares (w : World) (self after child : HandleRef) (h : Handle) (tree : Tree) : Prop :=
  ∃ r w' tree', Answers (fun fuel => call fuel (.insertAfter self (some after) child) w) (r, w') ∧
    w'.trees[h.tree]? = some tree' ∧ tree'.WellFormed ∧ tree.SameChildLists tree'

/-- The sibling is a child of the receiver other than the child. -/
def Tree.FitsBehind (tree : Tree) (h a x : Handle) : Prop :=
  tree.parentOf a.node = some h.node ∧ a.node ≠ x.node

/-- **The promise**: the child is inserted when the sibling fits, and the call is harmless
otherwise. -/
def World.InsertsOrSpares (w : World) (self after child : HandleRef) (h a x : Handle)
    (tree : Tree) : Prop :=
  (tree.FitsBehind h a x → w.Inserts self after child h a x tree) ∧
    (¬ tree.FitsBehind h a x → w.Spares self after child h tree)

/-- A sibling that fits: the child is inserted. -/
theorem inserts_of_fits (hargs : w.Inserting self after child h a x tree) (hwf : tree.WellFormed)
    (hchild : tree.Live x.node) (hbelow : ¬ tree.AncestorOrSelf x.node h.node)
    (hfits : tree.FitsBehind h a x) : w.Inserts self after child h a x tree := by
  -- the parent of a live node is live
  obtain ⟨n, hn, hparent⟩ := Option.bind_eq_some_iff.mp hfits.1
  have hlive : tree.Live h.node := hwf.links_live a.node n hn h.node (by simp [Node.links, hparent])
  obtain ⟨tree', hanswers, hwf', hmoved⟩ :=
    Attachment.run_wellFormed (.insertAfter (some a.node)) hwf hlive hchild hbelow hfits
  refine ⟨w.refreshed self h tree', tree', ?_, World.trees_refreshed hargs.receives tree', hwf',
    hmoved⟩
  obtain ⟨bound, hbound⟩ := hanswers
  exact ⟨bound, fun fuel hle => (insertAfter_call hargs).mpr ⟨tree', hbound fuel hle, rfl, rfl⟩⟩

/-- A call that is harmless shows that the sibling fits. -/
theorem fits_of_spares (hargs : w.Inserting self after child h a x tree)
    (hspares : w.Spares self after child h tree) : tree.FitsBehind h a x := by
  obtain ⟨r, w', tree', hanswers, htree', -, F, G, hF, hG, hsame⟩ := hspares
  obtain ⟨fuel, hcall⟩ := hanswers.exists_fuel
  obtain ⟨tree₁, hinsert, -, rfl⟩ := (insertAfter_call hargs).mp hcall
  rw [World.trees_refreshed hargs.receives] at htree'
  cases htree'
  exact insertAfter_some_fits hF hinsert hG hsame

/-- **When `insert_after` keeps its promise**, on every well-formed tree, for a receiver and a
sibling that are not stale and a live child that is neither the receiver nor above it: iff the
sibling is a child of the receiver other than the child. -/
theorem insertAfter_sound_iff (hargs : w.Inserting self after child h a x tree)
    (hwf : tree.WellFormed) (hchild : tree.Live x.node)
    (hbelow : ¬ tree.AncestorOrSelf x.node h.node) :
    w.InsertsOrSpares self after child h a x tree ↔ tree.FitsBehind h a x := by
  constructor
  · rintro ⟨-, hspares⟩
    by_contra hmisfit
    exact hmisfit (fits_of_spares hargs (hspares hmisfit))
  · intro hfits
    exact ⟨inserts_of_fits hargs hwf hchild hbelow, fun hmisfit => absurd hfits hmisfit⟩

/-- `nestedLists` with a third list, which is not attached. -/
def nestedAndLoose : Tree :=
  { nestedLists with nodes := ⟨nestedLists.nodes.slots ++ [some Node.newList], []⟩ }

/-- The objects after `z = t.new_list()` in `nested`. -/
def nestedThree : World :=
  ⟨[nestedAndLoose], [⟨0, ⟨0⟩, 1⟩, ⟨0, ⟨1⟩, 0⟩, ⟨0, ⟨2⟩, 1⟩, ⟨0, ⟨1⟩, 1⟩], []⟩

/-- `nestedAndLoose` is well-formed. -/
theorem nestedAndLoose_wellFormed : nestedAndLoose.WellFormed := by
  have hnew : nestedLists.Allocated nestedAndLoose ⟨2⟩ .list := ⟨rfl, rfl⟩
  exact hnew.wellFormed nestedLists_wellFormed (by decide)

/-- The loose list of `nestedAndLoose` is not above the root. -/
theorem nestedAndLoose_unrelated : ¬ nestedAndLoose.AncestorOrSelf ⟨2⟩ ⟨0⟩ :=
  Tree.not_ancestorOrSelf (by decide) rfl

/-- `insertAfter_sound_iff` at `t.insert_after(t[0], z)`. -/
theorem insertAfter_sound_iff_nestedThree :
    nestedThree.InsertsOrSpares 0 3 2 ⟨0, ⟨0⟩, 1⟩ ⟨0, ⟨1⟩, 1⟩ ⟨0, ⟨2⟩, 1⟩ nestedAndLoose := by
  have hargs : nestedThree.Inserting 0 3 2 ⟨0, ⟨0⟩, 1⟩ ⟨0, ⟨1⟩, 1⟩ ⟨0, ⟨2⟩, 1⟩ nestedAndLoose :=
    ⟨⟨rfl, rfl, rfl⟩, rfl, rfl, rfl, rfl, rfl⟩
  refine (insertAfter_sound_iff hargs nestedAndLoose_wellFormed rfl
    nestedAndLoose_unrelated).mpr ⟨rfl, ?_⟩
  decide

/-- **`insert_after` does not keep its promise** for every sibling: `t.insert_after(z, z)` links `z`
to itself. -/
theorem insertAfter_unsound : ¬ ∀ (w : World) (self after child : HandleRef) (h a x : Handle)
    (tree : Tree), w.Inserting self after child h a x tree → tree.WellFormed →
      tree.Live x.node → ¬ tree.AncestorOrSelf x.node h.node →
      w.InsertsOrSpares self after child h a x tree := by
  intro hsound
  have hargs : nestedThree.Inserting 0 2 2 ⟨0, ⟨0⟩, 1⟩ ⟨0, ⟨2⟩, 1⟩ ⟨0, ⟨2⟩, 1⟩ nestedAndLoose :=
    ⟨⟨rfl, rfl, rfl⟩, rfl, rfl, rfl, rfl, rfl⟩
  obtain ⟨-, hspares⟩ := hsound _ _ _ _ _ _ _ _ hargs nestedAndLoose_wellFormed rfl
    nestedAndLoose_unrelated
  have hmisfit : ¬ nestedAndLoose.FitsBehind ⟨0, ⟨0⟩, 1⟩ ⟨0, ⟨2⟩, 1⟩ ⟨0, ⟨2⟩, 1⟩ :=
    fun hfits => hfits.2 rfl
  exact hmisfit (fits_of_spares hargs (hspares hmisfit))

end Sexp
