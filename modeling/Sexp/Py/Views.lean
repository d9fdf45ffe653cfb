import Sexp.Core.LeafAtoms
import Sexp.Py.Iteration
import Sexp.Py.NoPanic

/-! # The views of the children of a node

`len`, iteration, slices, integer and string keys, `head`, `tail`, `in` and `parent` read different
fields of the nodes: the child count, the first child, the next siblings and the parents. In a sound
world they all show the same list of children (`views_agree`). -/

namespace Sexp

open Library (Answers Run Walk)

variable {w w' w₁ : World} {p q : HandleRef} {h o : Handle} {tree : Tree} {n : Node}
  {node c : NodeId} {l : List NodeId}

/-! ## The slice of all children -/

namespace SExp

/-- The slice `[:]` selects every place. -/
theorem sliceIndices_all (k : ℕ) : sliceIndices k none none none = some (List.range k) := by
  have hplaces : (List.range k).flatMap (fun i : ℕ => [(i : Int)]) =
      (List.range k).map fun i : ℕ => (i : Int) := List.map_eq_flatMap.symm
  simp [sliceIndices, sliceBound, hplaces, Function.comp_def]

/-- The entries at all places of a list are the list. -/
theorem filterMap_range (l : List NodeId) :
    ((List.range l.length).filterMap fun i => l[i]?) = l := by
  induction l with
  | nil => rfl
  | cons c l ih =>
      rw [List.length_cons, List.range_succ_eq_map, List.filterMap_cons, List.filterMap_map]
      simp only [List.getElem?_cons_zero, Function.comp_def, List.getElem?_cons_succ, ih]

/-- The slice `[:]` gives all children. -/
theorem childrenAt_all (hn : tree.nodes.get node = some n) (hl : tree.IsChildList node n l) :
    Answers (fun fuel => childrenAt fuel tree node (.slice none none none)) (.ok l) := by
  have hslice := childrenAt_slice hn hl (sliceIndices_all l.length)
  rwa [filterMap_range] at hslice

end SExp

/-! ## String keys -/

/-- The text of an atom node. -/
def Tree.atomText (tree : Tree) (id : NodeId) : Option String :=
  ((tree.nodes.get id).bind Node.atomValue).map Atom.asStr

/-- The first child of a node. -/
def Tree.firstOf (tree : Tree) (id : NodeId) : Option NodeId :=
  (tree.nodes.get id).bind Node.firstChild

/-- **A node that a string key selects**: an atom with this text, or a list whose first child is
one. -/
def Tree.SelectedBy (tree : Tree) (key : String) (id : NodeId) : Prop :=
  tree.atomText id = some key ∨
    tree.atomText id = none ∧ (tree.firstOf id).bind tree.atomText = some key

instance (tree : Tree) (key : String) (id : NodeId) : Decidable (tree.SelectedBy key id) :=
  inferInstanceAs (Decidable (_ ∨ _))

namespace SExp

/-- Whether a live node is an atom with some text. -/
theorem isAtomOf_eq (hc : tree.Live c) (text : String) :
    isAtomOf tree c text = .ok (decide (tree.atomText c = some text)) := by
  obtain ⟨m, hm⟩ := Option.isSome_iff_exists.mp hc
  rw [isAtomOf, Tree.get, Slab.index_eq_ok.mpr hm, Library.ok_bind, Tree.atomText, hm,
    Option.bind_some]
  cases m.atomValue with
  | none => rfl
  | some atom => simp

/-- **What a string key selects** in a tree with leaf atoms. -/
theorem keyed_eq (hcons : tree.Consistent) (hleaf : tree.LeafAtoms) (key : String)
    (hc : tree.Live c) : keyed tree key c = .ok (decide (tree.SelectedBy key c)) := by
  obtain ⟨m, hm⟩ := Option.isSome_iff_exists.mp hc
  rw [keyed, Tree.get, Slab.index_eq_ok.mpr hm, Library.ok_bind]
  rcases hfirst : m.firstChild with _ | first
  · have hsel : tree.SelectedBy key c ↔ tree.atomText c = some key := by
      simp [Tree.SelectedBy, Tree.firstOf, hm, hfirst]
    simp only [isAtomOf_eq hc, hsel]
  · -- a node with a child is no atom, so that it is selected by that child
    have hlist : tree.atomText c = none := by
      rcases hkind : m.kind with value | _
      · have hnone := (hleaf c m hm (by rw [Node.isAtom, hkind])).2.1
        rw [hfirst] at hnone
        cases hnone
      · simp [Tree.atomText, hm, Node.atomValue, hkind]
    have hlive : tree.Live first := hcons.links_live c m hm first (by simp [Node.links, hfirst])
    have hsel : tree.SelectedBy key c ↔ tree.atomText first = some key := by
      simp [Tree.SelectedBy, Tree.firstOf, hm, hfirst, hlist]
    simp only [isAtomOf_eq hlive, hsel]

/-- A string key gives the leftmost child that it selects. -/
theorem childByKey_answers (hcons : tree.Consistent) (hleaf : tree.LeafAtoms)
    (hn : tree.nodes.get node = some n) (hl : tree.IsChildList node n l) {key : String}
    {before after : List NodeId} (hsplit : l = before ++ c :: after)
    (hbefore : ∀ b ∈ before, ¬ tree.SelectedBy key b) (hc : tree.SelectedBy key c) :
    Answers (fun fuel => childByKey fuel tree node key) (.ok c) := by
  have hfind := findChild_answers hn hl fun d hd => keyed_eq hcons hleaf key (hl.live d hd)
  have hfound : l.find? (fun d => decide (tree.SelectedBy key d)) = some c := by
    rw [List.find?_eq_some_iff_append]
    exact ⟨decide_eq_true hc, before, after, hsplit, fun b hb => by simpa using hbefore b hb⟩
  rw [hfound] at hfind
  exact .bind hfind (.const fun _ => rfl)

/-- A string key raises when it selects no child. -/
theorem childByKey_raises (hcons : tree.Consistent) (hleaf : tree.LeafAtoms)
    (hn : tree.nodes.get node = some n) (hl : tree.IsChildList node n l) {key : String}
    (hnone : ∀ c ∈ l, ¬ tree.SelectedBy key c) :
    Answers (fun fuel => childByKey fuel tree node key)
      (.error (.keyError ("no child '" ++ key ++ "'"))) := by
  have hfind := findChild_answers hn hl fun d hd => keyed_eq hcons hleaf key (hl.live d hd)
  have hfound : l.find? (fun d => decide (tree.SelectedBy key d)) = none := by
    rw [List.find?_eq_none]
    intro c hc
    simpa using hnone c hc
  rw [hfound] at hfind
  exact .bind hfind (.const fun _ => rfl)

end SExp

/-! ## What a call answers -/

/-- **The call returns a handle** to a node of a tree, and does nothing else. -/
def World.ReturnsNode (w : World) (c : Call) (t : Nat) (version : UInt64) (x : NodeId) : Prop :=
  Answers (fun fuel => call fuel c w)
    (.ok (.sexp w.handles.length), w.extend [⟨t, x, version⟩] [])

/-- **The call raises**, and does nothing else. -/
def World.Raises (w : World) (c : Call) (e : PyErr) : Prop :=
  Answers (fun fuel => call fuel c w) (.error e, w)

/-- **Iterating gives these nodes**: the call returns an iterator, and advancing it again and again
yields handles to them, in order, until it ends. -/
def World.Iterates (w : World) (c : Call) (l : List NodeId) : Prop :=
  ∃ i w₁, Answers (fun fuel => call fuel c w) (.ok (.iter i), w₁) ∧
    ∃ events w₂, Run ApiStep w₁ events w₂ ∧ (∀ e ∈ events, e.label.call = .next i) ∧
      yielded i events = l ∧ ∀ fuel, call fuel (.next i) w₂ = .ok (.ok .none, w₂)

section Methods

variable {α β : Type} {r : Except PyErr α} {e : PyErr}

namespace SExp

variable {f : ℕ → Tree → NodeId → Exec (Except PyErr α)} {g : α × UInt64 → PyM β} {a : α}
  {s : Except PyErr β}

/-- What a method answers that reads its tree. -/
theorem withTree_answers (hrec : w.Receives p h tree)
    (hf : Answers (fun fuel => f fuel tree h.node) r) :
    Answers (fun fuel => withTree p (f fuel) w) (r, w) := by
  obtain ⟨bound, hbound⟩ := hf
  refine ⟨bound, fun fuel hle => ?_⟩
  show withTree p (f fuel) w = .ok (r, w)
  unfold withTree
  rw [receiver_apply hrec, PyM.bind_of_ok (PyM.lift_eq_ok.mpr ⟨r, hbound fuel hle, rfl, rfl⟩)]
  rfl

/-- What a method answers that reads its tree and goes on. -/
theorem read_answers (hrec : w.Receives p h tree)
    (hf : Answers (fun fuel => f fuel tree h.node) (.ok a))
    (hg : g (a, tree.version) w = .ok (s, w')) :
    Answers (fun fuel => (withTree p (versioned (f fuel)) >>= g) w) (s, w') := by
  have hread : Answers (fun fuel => withTree p (versioned (f fuel)) w) (.ok (a, tree.version), w) :=
    withTree_answers hrec (.bind hf (.const fun _ => rfl))
  obtain ⟨bound, hbound⟩ := hread
  refine ⟨bound, fun fuel hle => ?_⟩
  show (withTree p (versioned (f fuel)) >>= g) w = .ok (s, w')
  rw [PyM.bind_of_ok (hbound fuel hle), hg]

/-- What a method raises that reads its tree. -/
theorem read_raises (hrec : w.Receives p h tree)
    (hf : Answers (fun fuel => f fuel tree h.node) (.error e)) :
    Answers (fun fuel => (withTree p (versioned (f fuel)) >>= g) w) (.error e, w) := by
  have hread : Answers (fun fuel => withTree p (versioned (f fuel)) w) (.error e, w) :=
    withTree_answers hrec (.bind hf (.const fun _ => rfl))
  obtain ⟨bound, hbound⟩ := hread
  exact ⟨bound, fun fuel hle => PyM.bind_of_error (hbound fuel hle)⟩

variable {f : ℕ → Tree → NodeId → Exec (Except PyErr α × Tree)} {tree' : Tree}

/-- What a method answers that writes the tree of a receiver. -/
theorem withTreeMut_answers (hrec : w.Receives p h tree)
    (hf : Answers (fun fuel => f fuel tree h.node) (.ok a, tree')) :
    Answers (fun fuel => withTreeMut p (f fuel) w) (.ok a, w.refreshed p h tree') := by
  simp only [withTreeMut_apply hrec]
  exact .bind hf (.const fun _ => rfl)

/-- What a method answers that raises and leaves the tree of a receiver alone. -/
theorem withTreeMut_raises (hrec : w.Receives p h tree)
    (hf : Answers (fun fuel => f fuel tree h.node) (.error e, tree)) :
    Answers (fun fuel => withTreeMut p (f fuel) w) (.error e, w) := by
  simp only [withTreeMut_apply hrec]
  refine .bind hf (.const fun _ => ?_)
  dsimp only
  rw [setTree_self hrec.tree_eq]
  rfl

/-- **Allocating a node and creating a handle to it.** -/
theorem alloc_apply {alloc : Tree → Exec (Tree × NodeId)} {id : NodeId}
    (hrec : w.Receives p h tree) (hok : alloc tree = .ok (tree', id)) :
    (do
      let (id, version) ← withTreeMut p fun tree _ => do
        let (tree, id) ← alloc tree
        return ((.ok (id, tree.version) : Except PyErr (NodeId × UInt64)), tree)
      share p id version) w = .ok (.ok w.handles.length,
        (w.refreshed p h tree').extend [⟨h.tree, id, tree'.version⟩] []) := by
  have hwritten : withTreeMut p (fun tree _ => do
      let (tree, id) ← alloc tree
      return ((.ok (id, tree.version) : Except PyErr (NodeId × UInt64)), tree)) w =
      .ok (.ok (id, tree'.version), w.refreshed p h tree') := by
    rw [withTreeMut_apply hrec, hok]
    rfl
  rw [PyM.bind_of_ok hwritten]
  change share p id tree'.version (w.refreshed p h tree') = _
  rw [share_apply (World.handle_refreshed hrec.handle_eq tree'), World.length_handles_refreshed]
  split <;> rfl

end SExp

end Methods

/-! ## Iterating to the end -/

/-- **An iteration that is not disturbed yields all that is left**, and then ends. -/
theorem Iteration.exhausts {later : List ApiEvent} {i : IterRef} {t : Nat} {version : UInt64}
    {rest : List NodeId} (hiter : Iteration later w i t version l rest)
    (hnone : ∀ e ∈ later, ¬ e.Mutates t) :
    ∃ events w', Run ApiStep w events w' ∧ (∀ e ∈ events, e.label.call = .next i) ∧
      yielded i (events ++ later) = l ∧ ∀ fuel, call fuel (.next i) w' = .ok (.ok .none, w') := by
  induction rest generalizing later w with
  | nil =>
      have hparts := hiter.parts
      rw [List.append_nil] at hparts
      exact ⟨[], w, .nil, fun e he => absurd he List.not_mem_nil, hparts, hiter.ends⟩
  | cons current rest ih =>
      obtain ⟨tree, -, -, hyields⟩ := hiter.continues hnone
      obtain ⟨w₁, hw₁⟩ : ∃ w₁, w₁ = { w with
        iters := w.iters.set i ⟨t, tree.nextOf current, version⟩ }.extend
          [⟨t, current, version⟩] [] := ⟨_, rfl⟩
      rw [← hw₁] at hyields
      let e : ApiEvent := ⟨w, ⟨.next i, .ok (.sexp w.handles.length)⟩, w₁⟩
      have hstep : ApiStep e.before e.label e.after := ⟨0, hyields 0⟩
      obtain ⟨rest', hnext⟩ := Iteration.of_next (e := e) hiter rfl hstep
      have hyielded : e.yields i = some current := by
        simp [e, ApiEvent.yields, hw₁, World.extend]
      -- what is left is one node less
      have hrest : rest' = rest := by
        have hparts := hnext.parts.trans hiter.parts.symm
        rw [yielded, hyielded, Option.toList_some, List.append_assoc] at hparts
        exact (List.cons.inj (List.append_cancel_left hparts)).2
      subst hrest
      have hquiet : ¬ e.Mutates t := fun hmutates => hmutates.ne_next rfl
      obtain ⟨events, w', hrun, hcalls, hall, hend⟩ :=
        ih hnext (List.forall_mem_cons.mpr ⟨hquiet, hnone⟩)
      refine ⟨events ++ [e], w', (Run.nil.cons hstep).trans hrun, fun x hx => ?_, ?_, hend⟩
      · rcases List.mem_append.mp hx with hx | hx
        · exact hcalls x hx
        · rw [List.mem_singleton.mp hx]
      · rw [List.append_assoc, List.singleton_append]
        exact hall

/-- A call that creates an iterator at the first of the nodes that the forward links walk. -/
theorem World.iterates_of_new {cl : Call} (hrec : w.Receives p h tree)
    (hwalk : Walk tree.nextOf l.head? l) (hlive : ∀ c ∈ l, tree.Live c)
    (hcall : Answers (fun fuel => call fuel cl w)
      (.ok (.iter w.iters.length), w.extend [] [⟨h.tree, l.head?, tree.version⟩])) :
    w.Iterates cl l := by
  have hiter := iteration_shareIter hrec hwalk hlive
    (SExp.shareIter_apply hrec.handle_eq l.head? tree.version)
  obtain ⟨events, w₂, hrun, hcalls, hall, hend⟩ :=
    hiter.exhausts fun e he => absurd he List.not_mem_nil
  rw [List.append_nil] at hall
  exact ⟨w.iters.length, _, hcall, events, w₂, hrun, hcalls, hall, hend⟩

/-! ## The views -/

/-- **The views of the children** of the node of a handle show the list `l`: every call on the
handle answers what the list says. -/
structure World.ViewsAgree (w : World) (p : HandleRef) (h : Handle) (tree : Tree)
    (l : List NodeId) : Prop where
  /-- `len(p)`. -/
  len : Answers (fun fuel => call fuel (.len p) w) (.ok (.int l.length), w)
  /-- Iterating over `p`. -/
  iter : w.Iterates (.iter p) l
  /-- `p[:]` is a list of handles to the children. -/
  slice : Answers (fun fuel => call fuel (.getItem p (.slice none none none)) w)
    (.ok (.list ((List.range l.length).map (w.handles.length + ·))),
      w.extend (l.map fun c => ⟨h.tree, c, tree.version⟩) [])
  /-- `p[j]`, from the front. -/
  index : ∀ (j : ℕ) c, l[j]? = some c →
    w.ReturnsNode (.getItem p (.int j)) h.tree tree.version c
  /-- `p[j - k]`, from the back. -/
  index_back : ∀ (j : ℕ) c, l[j]? = some c →
    w.ReturnsNode (.getItem p (.int (j - l.length))) h.tree tree.version c
  /-- Any other index of machine size. -/
  index_out : ∀ i : Int, -(2 ^ 63) ≤ i → i < 2 ^ 63 → i < -l.length ∨ l.length ≤ i →
    w.Raises (.getItem p (.int i)) (.indexError "index out of range")
  /-- The arithmetic of indexing stays in machine size. -/
  index_fits : (l.length : Int) < 2 ^ 63 ∧ ∀ i : Int, -(2 ^ 63) ≤ i → i < 2 ^ 63 →
    -(2 ^ 63) ≤ SExp.realIndex l.length i ∧ SExp.realIndex l.length i < 2 ^ 63
  /-- `p.head`. -/
  head : ∀ c, l.head? = some c → w.ReturnsNode (.head p) h.tree tree.version c
  /-- `p.head` of a node without children. -/
  head_empty : l = [] → w.Raises (.head p) (.indexError "expression is empty")
  /-- Iterating over `p.tail`. -/
  tail : w.Iterates (.tail p) l.tail
  /-- `q in p`. -/
  contains : ∀ q o, w.handles[q]? = some o → o.tree = h.tree → o.isStale tree = false →
    Answers (fun fuel => call fuel (.contains p (.sexp q)) w) (.ok (.bool (decide (o.node ∈ l))), w)
  /-- `q.parent`. -/
  parent : ∀ q o, w.Receives q o tree → o.tree = h.tree →
    (o.node ∈ l ↔ w.ReturnsNode (.parent q) h.tree tree.version h.node)
  /-- `p[key]`. -/
  key : ∀ key before c after, l = before ++ c :: after →
    (∀ b ∈ before, ¬ tree.SelectedBy key b) → tree.SelectedBy key c →
      w.ReturnsNode (.getItem p (.str key)) h.tree tree.version c
  /-- `p[key]` without such a child. -/
  key_none : ∀ key, (∀ c ∈ l, ¬ tree.SelectedBy key c) →
    w.Raises (.getItem p (.str key)) (.keyError ("no child '" ++ key ++ "'"))

/-- A string key that selects a child. -/
theorem key_view (hrec : w.Receives p h tree) {key : String}
    (hchild : Answers (fun fuel => SExp.childByKey fuel tree h.node key) (.ok c)) :
    w.ReturnsNode (.getItem p (.str key)) h.tree tree.version c := by
  have hitem : Answers (fun fuel => SExp.getItem fuel p (.str key) w)
      (.ok (.sexp w.handles.length), w.extend [⟨h.tree, c, tree.version⟩] []) :=
    SExp.read_answers hrec hchild
      (PyM.map_eq_ok.mpr ⟨_, SExp.share_apply hrec.handle_eq c tree.version, rfl⟩)
  exact PyM.map_answers hitem Value.ofItem

/-- The parent of a node that has none. -/
theorem parent_none_view (hq : w.Receives q o tree) (hm : tree.nodes.get o.node = some n)
    (hparent : n.parent = none) :
    Answers (fun fuel => call fuel (.parent q) w) (.ok .none, w) := by
  have hread : Answers (fun _ => do return (.ok (← tree.parent o.node) :
      Except PyErr (Option NodeId))) (.ok none) := by
    refine .bind (.bind (.const fun _ => Slab.index_eq_ok.mpr hm) (.const fun _ => rfl))
      (.const fun _ => ?_)
    rw [hparent]
    rfl
  have hnone : Answers (fun _ => SExp.parent q w) (.ok none, w) := SExp.read_answers hq hread rfl
  exact PyM.map_answers hnone Value.ofHandle

/-- The parent of a node that has one. -/
theorem parent_some_view (hq : w.Receives q o tree) (hm : tree.nodes.get o.node = some n)
    (hparent : n.parent = some c) :
    w.ReturnsNode (.parent q) o.tree tree.version c := by
  have hread : Answers (fun _ => do return (.ok (← tree.parent o.node) :
      Except PyErr (Option NodeId))) (.ok (some c)) := by
    refine .bind (.bind (.const fun _ => Slab.index_eq_ok.mpr hm) (.const fun _ => rfl))
      (.const fun _ => ?_)
    rw [hparent]
    rfl
  have hsome : Answers (fun _ => SExp.parent q w)
      (.ok (some w.handles.length), w.extend [⟨o.tree, c, tree.version⟩] []) :=
    SExp.read_answers hq hread
      (PyM.map_eq_ok.mpr ⟨_, SExp.share_apply hq.handle_eq c tree.version, rfl⟩)
  exact PyM.map_answers hsome Value.ofHandle

/-- **`parent` tells the children**: it returns the node of a handle exactly on its children. -/
theorem parent_view (hq : w.Receives q o tree) (hlive : tree.Live o.node)
    (hl : tree.IsChildList node n l) :
    o.node ∈ l ↔ w.ReturnsNode (.parent q) o.tree tree.version node := by
  obtain ⟨m, hm⟩ := Option.isSome_iff_exists.mp hlive
  rw [hl.mem_iff, Tree.parentOf, hm, Option.bind_some]
  refine ⟨parent_some_view hq hm, fun hreturns => ?_⟩
  rcases hparent : m.parent with _ | x
  · have heq := (parent_none_view hq hm hparent).unique hreturns
    cases heq
  · -- the handle that is created tells the node
    have heq := (parent_some_view hq hm hparent).unique hreturns
    have hworld : w.extend [⟨o.tree, x, tree.version⟩] [] =
        w.extend [⟨o.tree, node, tree.version⟩] [] := (Prod.mk.inj heq).2
    have hhandles := List.append_cancel_left (congrArg World.handles hworld)
    simp only [List.cons.injEq, Handle.mk.injEq, true_and, and_true] at hhandles
    rw [hhandles]

section Views

variable (hrec : w.Receives p h tree) (hn : tree.nodes.get h.node = some n)
  (hl : tree.IsChildList h.node n l)

include hrec hn hl

/-- `len`. -/
theorem len_view : Answers (fun fuel => call fuel (.len p) w) (.ok (.int l.length), w) := by
  have hread : Answers (fun _ => SExp.len p w) (.ok n.childCount.toNat, w) :=
    SExp.withTree_answers hrec
      (.bind (.const fun _ => Slab.index_eq_ok.mpr hn) (.const fun _ => rfl))
  rw [hl.length_eq]
  exact PyM.map_answers hread Value.int

/-- `p[:]`. -/
theorem slice_view : Answers (fun fuel => call fuel (.getItem p (.slice none none none)) w)
    (.ok (.list ((List.range l.length).map (w.handles.length + ·))),
      w.extend (l.map fun c => ⟨h.tree, c, tree.version⟩) []) := by
  have hitem : Answers (fun fuel => SExp.getItem fuel p (.slice none none none) w)
      (.ok (.list ((List.range l.length).map (w.handles.length + ·))),
        w.extend (l.map fun c => ⟨h.tree, c, tree.version⟩) []) :=
    SExp.read_answers hrec (SExp.childrenAt_all hn hl)
      (PyM.map_eq_ok.mpr ⟨_, SExp.shareAll_apply hrec.handle_eq l tree.version, rfl⟩)
  exact PyM.map_answers hitem Value.ofItem

/-- An index of machine size that gives a child. -/
theorem index_view {index : Int} {j : ℕ} (hmachine : -(2 ^ 63) ≤ index ∧ index < 2 ^ 63)
    (hj : SExp.realIndex l.length index = j) (hc : l[j]? = some c) :
    w.ReturnsNode (.getItem p (.int index)) h.tree tree.version c := by
  have hfits : ¬ (index < -(2 ^ 63) ∨ 2 ^ 63 ≤ index) := by omega
  have hitem : Answers (fun fuel => SExp.getItem fuel p (.int index) w)
      (.ok (.sexp w.handles.length), w.extend [⟨h.tree, c, tree.version⟩] []) := by
    simp only [SExp.getItem, if_neg hfits]
    exact SExp.read_answers hrec (SExp.childAt_answers hn hl hj hc)
      (PyM.map_eq_ok.mpr ⟨_, SExp.share_apply hrec.handle_eq c tree.version, rfl⟩)
  exact PyM.map_answers hitem Value.ofItem

/-- An index of machine size that gives no child. -/
theorem index_out_view {index : Int} (hmachine : -(2 ^ 63) ≤ index ∧ index < 2 ^ 63)
    (hout : index < -l.length ∨ l.length ≤ index) :
    w.Raises (.getItem p (.int index)) (.indexError "index out of range") := by
  have hfits : ¬ (index < -(2 ^ 63) ∨ 2 ^ 63 ≤ index) := by omega
  have hreal : SExp.realIndex l.length index < 0 ∨ SExp.realIndex l.length index ≥ l.length := by
    unfold SExp.realIndex
    split <;> omega
  have hitem : Answers (fun fuel => SExp.getItem fuel p (.int index) w)
      (.error (.indexError "index out of range"), w) := by
    simp only [SExp.getItem, if_neg hfits]
    exact SExp.read_raises hrec (SExp.childAt_raises hn hl hreal)
  exact PyM.map_answers hitem Value.ofItem

/-- The first child. -/
theorem head_view (hc : l.head? = some c) :
    w.ReturnsNode (.head p) h.tree tree.version c := by
  have hfirst : n.firstChild = some c := hl.forward.start_eq.trans hc
  have hhead : Answers (fun _ => SExp.headOf tree h.node) (.ok c) := by
    refine .bind (.const fun _ => SExp.firstChild_of_get hn) (.const fun _ => ?_)
    rw [hfirst]
    rfl
  have hread : Answers (fun _ => SExp.head p w)
      (.ok w.handles.length, w.extend [⟨h.tree, c, tree.version⟩] []) :=
    SExp.read_answers hrec hhead (SExp.share_apply hrec.handle_eq c tree.version)
  exact PyM.map_answers hread Value.sexp

/-- There is no first child. -/
theorem head_empty_view (hempty : l = []) :
    w.Raises (.head p) (.indexError "expression is empty") := by
  have hfirst : n.firstChild = none := by
    rw [hl.forward.start_eq, hempty]
    rfl
  have hhead : Answers (fun _ => SExp.headOf tree h.node)
      (.error (.indexError "expression is empty")) := by
    refine .bind (.const fun _ => SExp.firstChild_of_get hn) (.const fun _ => ?_)
    rw [hfirst]
    rfl
  have hread : Answers (fun _ => SExp.head p w) (.error (.indexError "expression is empty"), w) :=
    SExp.read_raises hrec hhead
  exact PyM.map_answers hread Value.sexp

/-- A node of the same tree is looked up among the children. -/
theorem contains_view (hq : w.handles[q]? = some o) (hsame : o.tree = h.tree)
    (hfresh : o.isStale tree = false) :
    Answers (fun fuel => call fuel (.contains p (.sexp q)) w)
      (.ok (.bool (decide (o.node ∈ l))), w) := by
  have hfind : Answers (fun fuel => SExp.findChild fuel tree h.node fun id => return id = o.node)
      (l.find? fun id => decide (id = o.node)) :=
    SExp.findChild_answers hn hl fun _ _ => rfl
  have hfound : (l.find? fun id => decide (id = o.node)).isSome = decide (o.node ∈ l) := by
    rw [Bool.eq_iff_iff, List.find?_isSome]
    simp
  obtain ⟨bound, hbound⟩ := hfind
  have hcontains : Answers (fun fuel => SExp.contains fuel p (.sexp q) w)
      (.ok (decide (o.node ∈ l)), w) := by
    refine ⟨bound, fun fuel hle => ?_⟩
    show SExp.contains fuel p (.sexp q) w = _
    unfold SExp.contains
    rw [SExp.receiver_apply hrec]
    simp only [PyM.bind_of_ok (PyM.handle_apply hq), hsame, ne_eq, not_true_eq_false, if_false,
      hfresh, Bool.false_eq_true]
    rw [PyM.bind_of_ok (PyM.lift_eq_ok.mpr ⟨_, hbound fuel hle, rfl, rfl⟩), hfound]
    rfl
  exact PyM.map_answers hcontains Value.bool

/-- Iterating. -/
theorem iter_view : w.Iterates (.iter p) l := by
  have hfirst : Answers (fun _ => do return (.ok (← tree.firstChild h.node) :
      Except PyErr (Option NodeId))) (.ok l.head?) := by
    refine .bind (.const fun _ => SExp.firstChild_of_get hn) (.const fun _ => ?_)
    rw [hl.forward.start_eq]
    rfl
  have hread : Answers (fun _ => SExp.iter p w)
      (.ok w.iters.length, w.extend [] [⟨h.tree, l.head?, tree.version⟩]) :=
    SExp.read_answers hrec hfirst (SExp.shareIter_apply hrec.handle_eq l.head? tree.version)
  have hwalk := hl.forward
  rw [hwalk.start_eq] at hwalk
  exact World.iterates_of_new hrec hwalk hl.live (PyM.map_answers hread Value.iter)

/-- Iterating over the children behind the first. -/
theorem tail_view : w.Iterates (.tail p) l.tail := by
  have hsecond : Answers (fun _ => do return (.ok (← SExp.secondChild tree h.node) :
      Except PyErr (Option NodeId))) (.ok l.tail.head?) :=
    .bind (.const fun _ => SExp.secondChild_eq hn hl) (.const fun _ => rfl)
  have hread : Answers (fun _ => SExp.tail p w)
      (.ok w.iters.length, w.extend [] [⟨h.tree, l.tail.head?, tree.version⟩]) :=
    SExp.read_answers hrec hsecond (SExp.shareIter_apply hrec.handle_eq l.tail.head? tree.version)
  exact World.iterates_of_new hrec hl.walk_tail (fun c hc => hl.live c (List.mem_of_mem_tail hc))
    (PyM.map_answers hread Value.iter)

end Views

/-- **All views of the children agree.** In a sound world, the views of the node of every handle
that is not stale show its child list, if the atoms of its tree have no children: the list walked
by the forward and, in reverse, the backward links, which has as many elements as the child count
says and holds the nodes whose parent the node is. -/
theorem views_agree (hsound : w.Sound) (hrec : w.Receives p h tree) (hleaf : tree.LeafAtoms) :
    ∃ n l, tree.nodes.get h.node = some n ∧ tree.IsChildList h.node n l ∧
      w.ViewsAgree p h tree l := by
  have hcons := hsound.consistent hrec
  obtain ⟨n, hn⟩ := hsound.get hrec
  obtain ⟨l, hl⟩ := hcons.children h.node n hn
  have hlt := hl.length_lt
  refine ⟨n, l, hn, hl, ?_⟩
  constructor
  case len => exact len_view hrec hn hl
  case iter => exact iter_view hrec hn hl
  case slice => exact slice_view hrec hn hl
  case index =>
    intro j c hc
    have hj := (List.getElem?_eq_some_iff.mp hc).1
    refine index_view hrec hn hl (by omega) ?_ hc
    rw [SExp.realIndex, if_neg (by omega)]
  case index_back =>
    intro j c hc
    have hj := (List.getElem?_eq_some_iff.mp hc).1
    refine index_view hrec hn hl (by omega) ?_ hc
    rw [SExp.realIndex, if_pos (by omega)]
    omega
  case index_out => exact fun i hlow hhigh hout => index_out_view hrec hn hl ⟨hlow, hhigh⟩ hout
  case index_fits =>
    refine ⟨by omega, fun i hlow hhigh => ?_⟩
    unfold SExp.realIndex
    split <;> omega
  case head => exact fun c hc => head_view hrec hn hl hc
  case head_empty => exact fun hempty => head_empty_view hrec hn hl hempty
  case tail => exact tail_view hrec hn hl
  case contains => exact fun q o hq hsame hfresh => contains_view hrec hn hl hq hsame hfresh
  case parent =>
    intro q o hq hsame
    rw [← hsame]
    exact parent_view hq (hsound.live hq) hl
  case key =>
    intro key before c after hsplit hbefore hc
    exact key_view hrec (SExp.childByKey_answers hcons hleaf hn hl hsplit hbefore hc)
  case key_none =>
    intro key hnone
    have hitem : Answers (fun fuel => SExp.getItem fuel p (.str key) w)
        (.error (.keyError ("no child '" ++ key ++ "'")), w) :=
      SExp.read_raises hrec (SExp.childByKey_raises hcons hleaf hn hl hnone)
    exact PyM.map_answers hitem Value.ofItem

/-- `views_agree` at the three children of a parsed text; the first one has the key `a`. -/
theorem views_agree_parsed :
    parsedMixed.ViewsAgree 0 ⟨0, ⟨0⟩, 0⟩ mixedTree [⟨1⟩, ⟨5⟩, ⟨6⟩] ∧
      parsedMixed.ReturnsNode (.getItem 0 (.str "a")) 0 0 ⟨1⟩ := by
  have hrec : parsedMixed.Receives 0 ⟨0, ⟨0⟩, 0⟩ mixedTree := ⟨rfl, rfl, rfl⟩
  obtain ⟨n, l, hn, hl, hviews⟩ :=
    views_agree (sound_of_run run_parsed eventsParsed_calm) hrec mixedTree_leafAtoms
  obtain rfl := Option.some.inj (hn.symm.trans rfl)
  have hwalk : Walk mixedTree.nextOf (some ⟨1⟩) [⟨1⟩, ⟨5⟩, ⟨6⟩] := ⟨rfl, rfl, rfl, rfl⟩
  obtain rfl : l = [⟨1⟩, ⟨5⟩, ⟨6⟩] := hl.forward.unique hwalk
  have hkey : mixedTree.SelectedBy "a" ⟨1⟩ := by decide +kernel
  exact ⟨hviews, hviews.key "a" [] ⟨1⟩ _ rfl (fun _ hb => absurd hb List.not_mem_nil) hkey⟩

end Sexp
