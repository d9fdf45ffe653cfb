import Sexp.Py.Totality

/-! # No call panics

In a sound world every call finishes, unless it attaches: what it attaches must be live and sane
(`call_finishes`). So no call panics in any run whose calls meet the conditions of sound worlds
(`no_panic_of_run`). The library itself checks neither of them: a handle whose node has been removed
and a list that is attached to itself make it panic. -/

namespace Sexp

open Library (Answers Run)

variable {fuel : Nat} {w w' : World} {c : Call} {self ref : HandleRef} {h : Handle} {tree : Tree}
  {v : Value} {events : List ApiEvent} {node : NodeId} {n : Node} {l : List NodeId}

/-! ## Reading the children of a live node -/

namespace SExp

/-- Whether a live node is an atom with some text. -/
theorem isAtomOf_total (hnode : tree.Live node) (value : String) :
    ∃ b, isAtomOf tree node value = .ok b := by
  obtain ⟨n, hn⟩ := Option.isSome_iff_exists.mp hnode
  rw [isAtomOf, Tree.get, Slab.index_eq_ok.mpr hn, Library.ok_bind]
  cases n.atomValue with
  | some atom => exact ⟨_, rfl⟩
  | none => exact ⟨_, rfl⟩

/-- Whether a live node is selected by a string key. -/
theorem keyed_total (hcons : tree.Consistent) (key : String) (hnode : tree.Live node) :
    ∃ b, keyed tree key node = .ok b := by
  obtain ⟨n, hn⟩ := Option.isSome_iff_exists.mp hnode
  rw [keyed, Tree.get, Slab.index_eq_ok.mpr hn, Library.ok_bind]
  rcases hfirst : n.firstChild with _ | first
  · exact isAtomOf_total hnode key
  · have hlive : tree.Live first := hcons.links_live node n hn first (by simp [Node.links, hfirst])
    exact isAtomOf_total hlive key

/-- Searching the children of a node. -/
theorem findChild_answers (hn : tree.nodes.get node = some n) (hl : tree.IsChildList node n l)
    {f : NodeId → Exec Bool} {r : NodeId → Bool} (hf : ∀ c ∈ l, f c = .ok (r c)) :
    Answers (fun fuel => findChild fuel tree node f) (l.find? r) :=
  .bind (.const fun _ => ChildIter.new_eq hn) (ChildIter.find_answers hl.forward hl.live hf)

/-- **Searching the children of a live node ends**, when the predicate can be evaluated on live
nodes. -/
theorem findChild_total (hcons : tree.Consistent) (hn : tree.nodes.get node = some n)
    {q : NodeId → Exec Bool} (hq : ∀ c, tree.Live c → ∃ b, q c = .ok b) :
    ∃ r, Answers (fun fuel => findChild fuel tree node q) r := by
  obtain ⟨l, hl⟩ := hcons.children node n hn
  choose! r hr using hq
  exact ⟨_, findChild_answers hn hl fun c hc => hr c (hl.live c hc)⟩

/-- Indexing below the child count gives the child at the real index. -/
theorem childAt_answers (hn : tree.nodes.get node = some n) (hl : tree.IsChildList node n l)
    {index : Int} {j : ℕ} {c : NodeId} (hj : realIndex l.length index = j) (hc : l[j]? = some c) :
    Answers (fun fuel => childAt fuel tree node index) (.ok c) := by
  have hget : tree.get node = .ok n := Slab.index_eq_ok.mpr hn
  have hlt : j < l.length := (List.getElem?_eq_some_iff.mp hc).1
  have hnth := ChildIter.nth_answers hl.forward hl.live j
  rw [hc] at hnth
  have hin : ¬ ((j : Int) < 0 ∨ (j : Int) ≥ l.length) := by omega
  refine .bind (.const fun _ => hget) ?_
  simp only [← hl.length_eq, hj, Int.toNat_natCast, if_neg hin]
  exact .bind (.const fun _ => ChildIter.new_eq hn) (.bind hnth (.const fun _ => rfl))

/-- Indexing outside of the child count raises. -/
theorem childAt_raises (hn : tree.nodes.get node = some n) (hl : tree.IsChildList node n l)
    {index : Int} (hout : realIndex l.length index < 0 ∨ realIndex l.length index ≥ l.length) :
    Answers (fun fuel => childAt fuel tree node index)
      (.error (.indexError "index out of range")) := by
  have hget : tree.get node = .ok n := Slab.index_eq_ok.mpr hn
  refine .bind (.const fun _ => hget) ?_
  simp only [← hl.length_eq, if_pos hout]
  exact .const fun _ => rfl

/-- **Indexing a live node ends**: below the child count there is a child. -/
theorem childAt_total (hcons : tree.Consistent) (hn : tree.nodes.get node = some n) (index : Int) :
    ∃ r, Answers (fun fuel => childAt fuel tree node index) r := by
  obtain ⟨l, hl⟩ := hcons.children node n hn
  by_cases hout : realIndex l.length index < 0 ∨ realIndex l.length index ≥ l.length
  · exact ⟨_, childAt_raises hn hl hout⟩
  · obtain ⟨j, hj⟩ := Int.eq_ofNat_of_zero_le (by omega : 0 ≤ realIndex l.length index)
    have hlt : j < l.length := by omega
    exact ⟨_, childAt_answers hn hl hj (List.getElem?_eq_getElem hlt)⟩

/-- Looking up a string key ends. -/
theorem childByKey_total (hcons : tree.Consistent) (hn : tree.nodes.get node = some n)
    (key : String) : ∃ r, Answers (fun fuel => childByKey fuel tree node key) r := by
  obtain ⟨r, hfind⟩ := findChild_total hcons hn fun c hc => keyed_total hcons key hc
  rcases r with _ | child
  · exact ⟨_, .bind hfind (.const fun _ => rfl)⟩
  · exact ⟨_, .bind hfind (.const fun _ => rfl)⟩

/-- A slice gives the children at the places that it selects. -/
theorem childrenAt_slice (hn : tree.nodes.get node = some n) (hl : tree.IsChildList node n l)
    {start stop step : Option Int} {places : List ℕ}
    (hplaces : sliceIndices l.length start stop step = some places) :
    Answers (fun fuel => childrenAt fuel tree node (.slice start stop step))
      (.ok (places.filterMap fun i => l[i]?)) := by
  have hcollect := ChildIter.collect_answers hl.forward hl.live
  refine .bind (.const fun _ => ChildIter.new_eq hn) (.bind hcollect (.const fun _ => ?_))
  simp only [hplaces]
  rfl

/-- Slicing ends. -/
theorem childrenAt_total (hcons : tree.Consistent) (hn : tree.nodes.get node = some n)
    (key : PyKey) : ∃ r, Answers (fun fuel => childrenAt fuel tree node key) r := by
  obtain ⟨l, hl⟩ := hcons.children node n hn
  have hcollect := ChildIter.collect_answers hl.forward hl.live
  have hnew := ChildIter.new_eq hn
  cases key with
  | slice start stop step =>
      rcases hplaces : sliceIndices l.length start stop step with _ | places
      · refine ⟨.error (.valueError "slice step cannot be zero"), ?_⟩
        refine .bind (.const fun _ => hnew) (.bind hcollect (.const fun _ => ?_))
        simp only [hplaces]
        rfl
      · exact ⟨_, childrenAt_slice hn hl hplaces⟩
  | int _ => exact ⟨_, .bind (.const fun _ => hnew) (.bind hcollect (.const fun _ => rfl))⟩
  | str _ => exact ⟨_, .bind (.const fun _ => hnew) (.bind hcollect (.const fun _ => rfl))⟩
  | object _ => exact ⟨_, .bind (.const fun _ => hnew) (.bind hcollect (.const fun _ => rfl))⟩

/-! ## Methods that read -/

/-- `repr` finishes. -/
theorem repr_finishes (hsound : w.Sound) (href : ref < w.handles.length) :
    Finishes (fun fuel => repr fuel ref) w := by
  refine receiver_finishes hsound href fun h tree hrec => ?_
  obtain ⟨n, hn⟩ := Option.isSome_iff_exists.mp (hsound.live hrec)
  have hbare := isBareRoot_eq hn
  refine .bind_readOnly (.lift (.const fun _ => hbare)) (fun _ => PyM.readOnly_lift _) fun b => ?_
  cases b with
  | true => exact .const rfl
  | false =>
      rcases hcached : tree.cachedRepr h.node with _ | cached
      · simp only [Bool.false_eq_true, if_false]
        refine withTreeMut_finishes hsound href fun h tree hrec => ?_
        obtain ⟨form, hform⟩ := (hsound.consistent hrec).exists_denotes (hsound.live hrec)
        exact ⟨_, .bind (serializeNode_answers hform) (.const fun _ => rfl)⟩
      · simp only [Bool.false_eq_true, if_false]
        exact .const rfl

/-- Reading a field of the node of the receiver finishes. -/
theorem field_finishes {α : Type} (hsound : w.Sound) (href : ref < w.handles.length)
    (g : Node → Except PyErr α) :
    Finishes (fun _ => withTree ref fun tree node => do return g (← tree.get node)) w := by
  refine withTree_finishes hsound href fun h tree hrec => ?_
  obtain ⟨n, hn⟩ := hsound.get hrec
  exact ⟨g n, .bind (.const fun _ => Slab.index_eq_ok.mpr hn) (.const fun _ => rfl)⟩

/-- `self.value` finishes. -/
theorem value_finishes (hsound : w.Sound) (href : ref < w.handles.length) :
    Finishes (fun _ => value ref) w := by
  refine withTree_finishes hsound href fun h tree hrec => ?_
  obtain ⟨n, hn⟩ := hsound.get hrec
  have hget : tree.get h.node = .ok n := Slab.index_eq_ok.mpr hn
  rcases hkind : n.kind with atom | _
  · refine ⟨.ok atom.asStr, .bind (.const fun _ => hget) (.const fun _ => ?_)⟩
    simp only [hkind]
    rfl
  · refine ⟨.error (.typeError "list node has no value"), ?_⟩
    refine .bind (.const fun _ => hget) (.const fun _ => ?_)
    simp only [hkind]
    rfl

/-- `==` finishes. -/
theorem eq_finishes (hsound : w.Sound) (href : ref < w.handles.length) {other : PyArg}
    (hother : ∀ o ∈ other.handles, o < w.handles.length) :
    Finishes (fun fuel => eq fuel ref other) w := by
  cases other with
  | sexp other =>
      obtain ⟨h, tree, hh, ht, hself⟩ := hsound.handle_cases href
      obtain ⟨o, otree, ho, hot, hoself⟩ :=
        hsound.handle_cases (hother other (by simp [PyArg.handles]))
      -- the comparison ends on two receivers
      have hcompare : w.Receives ref h tree → w.Receives other o otree →
          Finishes (fun fuel => PyM.lift (subtreesEqual fuel tree h.node otree o.node)) w := by
        intro hrec horec
        obtain ⟨form, hform⟩ := (hsound.consistent hrec).exists_denotes (hsound.live hrec)
        obtain ⟨oform, hoform⟩ := (hsound.consistent horec).exists_denotes (hsound.live horec)
        obtain ⟨answer, hanswer, -⟩ := subtreesEqual_answers hform hoform
        exact .lift hanswer
      refine .handle_bind hh (.handle_bind ho ?_)
      by_cases hsame : h.tree = o.tree
      · simp only [if_pos hsame]
        obtain rfl := Option.some.inj (ht.symm.trans (hsame ▸ hot))
        refine .treeAt_bind ht ?_
        rcases hself with hstale | hrec
        · simp only [hstale, Bool.true_or, if_true]
          exact .const rfl
        · rcases hoself with hstale | horec
          · simp only [hstale, Bool.or_true, if_true]
            exact .const rfl
          · simp only [hrec.fresh, horec.fresh, Bool.or_self, Bool.false_eq_true, if_false]
            exact hcompare hrec horec
      · simp only [if_neg hsame]
        refine .treeAt_bind ht ?_
        rcases hself with hstale | hrec
        · simp only [hstale, if_true]
          exact .const rfl
        · simp only [hrec.fresh, Bool.false_eq_true, if_false]
          refine .treeAt_bind hot ?_
          rcases hoself with hstale | horec
          · simp only [hstale, if_true]
            exact .const rfl
          · simp only [horec.fresh, Bool.false_eq_true, if_false]
            exact hcompare hrec horec
  | str value => exact .const rfl
  | object => exact .const rfl

/-- `in` finishes. -/
theorem contains_finishes (hsound : w.Sound) (href : ref < w.handles.length) {item : PyArg}
    (hitem : ∀ o ∈ item.handles, o < w.handles.length) :
    Finishes (fun fuel => contains fuel ref item) w := by
  refine receiver_finishes hsound href fun h tree hrec => ?_
  have hcons := hsound.consistent hrec
  obtain ⟨n, hn⟩ := hsound.get hrec
  cases item with
  | sexp other =>
      obtain ⟨o, ho⟩ : ∃ o, w.handles[other]? = some o :=
        ⟨_, List.getElem?_eq_getElem (hitem other (by simp [PyArg.handles]))⟩
      refine .handle_bind ho ?_
      by_cases hsame : h.tree = o.tree
      · simp only [if_neg (not_not.mpr hsame)]
        cases hstale : o.isStale tree with
        | true =>
            simp only [if_true]
            exact .const rfl
        | false =>
            simp only [Bool.false_eq_true, if_false]
            have hpure : ∀ c, tree.Live c → ∃ b, (do return c = o.node : Exec Bool) = .ok b :=
              fun c _ => ⟨_, rfl⟩
            obtain ⟨r, hfind⟩ := findChild_total hcons hn hpure
            exact .bind_readOnly (.lift hfind) (fun _ => PyM.readOnly_lift _) fun _ => .const rfl
      · simp only [ne_eq, if_pos hsame]
        exact .const rfl
  | str value =>
      obtain ⟨r, hfind⟩ := findChild_total hcons hn fun c hc => isAtomOf_total hc value
      exact .bind_readOnly (.lift hfind) (fun _ => PyM.readOnly_lift _) fun _ => .const rfl
  | object => exact .const rfl

/-! ## Methods that walk -/

/-- `[]` finishes. -/
theorem getItem_finishes (hsound : w.Sound) (href : ref < w.handles.length) (key : PyKey) :
    Finishes (fun fuel => getItem fuel ref key) w := by
  -- the children that a key of a list selects
  have hall : ∀ key, Finishes (fun fuel => withTree ref (versioned fun tree node =>
      childrenAt fuel tree node key) >>= fun p => PyItem.list <$> shareAll ref p.1 p.2) w := by
    intro key
    refine read_finishes hsound href (fun h tree hrec => ?_) fun p =>
      (shareAll_finishes href p.1 p.2).map _
    obtain ⟨n, hn⟩ := hsound.get hrec
    exact childrenAt_total (hsound.consistent hrec) hn key
  cases key with
  | int index =>
      by_cases hrange : index < -(2 ^ 63) ∨ 2 ^ 63 ≤ index
      · simp only [getItem, if_pos hrange]
        exact .const rfl
      · simp only [getItem, if_neg hrange]
        refine read_finishes hsound href (fun h tree hrec => ?_) fun p =>
          (share_finishes href p.1 p.2).map _
        obtain ⟨n, hn⟩ := hsound.get hrec
        exact childAt_total (hsound.consistent hrec) hn index
  | str key =>
      refine read_finishes hsound href (fun h tree hrec => ?_) fun p =>
        (share_finishes href p.1 p.2).map _
      obtain ⟨n, hn⟩ := hsound.get hrec
      exact childByKey_total (hsound.consistent hrec) hn key
  | slice start stop step => exact hall (.slice start stop step)
  | object typeName => exact hall (.object typeName)

/-- Reading the first child of a live node. -/
theorem firstChild_of_get (hn : tree.nodes.get node = some n) :
    tree.firstChild node = .ok n.firstChild := by
  rw [Tree.firstChild, Tree.get, Slab.index_eq_ok.mpr hn]
  rfl

/-- `iter` finishes. -/
theorem iter_finishes (hsound : w.Sound) (href : ref < w.handles.length) :
    Finishes (fun _ => iter ref) w := by
  refine read_finishes hsound href (fun h tree hrec => ?_) fun p => shareIter_finishes href p.1 p.2
  obtain ⟨n, hn⟩ := hsound.get hrec
  exact ⟨_, .bind (.const fun _ => firstChild_of_get hn) (.const fun _ => rfl)⟩

/-- `self.head` finishes. -/
theorem head_finishes (hsound : w.Sound) (href : ref < w.handles.length) :
    Finishes (fun _ => head ref) w := by
  refine read_finishes hsound href (fun h tree hrec => ?_) fun p => share_finishes href p.1 p.2
  obtain ⟨n, hn⟩ := hsound.get hrec
  have hfirst := firstChild_of_get hn
  rcases hchild : n.firstChild with _ | first
  · rw [hchild] at hfirst
    exact ⟨_, .bind (.const fun _ => hfirst) (.const fun _ => rfl)⟩
  · rw [hchild] at hfirst
    exact ⟨_, .bind (.const fun _ => hfirst) (.const fun _ => rfl)⟩

/-- `self.tail` finishes. -/
theorem tail_finishes (hsound : w.Sound) (href : ref < w.handles.length) :
    Finishes (fun _ => tail ref) w := by
  refine read_finishes hsound href (fun h tree hrec => ?_) fun p => shareIter_finishes href p.1 p.2
  obtain ⟨n, hn⟩ := hsound.get hrec
  obtain ⟨second, hsecond⟩ : ∃ second, secondChild tree h.node = .ok second := by
    rw [secondChild, firstChild_of_get hn, Library.ok_bind]
    rcases hchild : n.firstChild with _ | first
    · exact ⟨none, rfl⟩
    · have hlive : tree.Live first :=
        (hsound.consistent hrec).links_live h.node n hn first (by simp [Node.links, hchild])
      exact ⟨_, Tree.nextSibling_of_live hlive⟩
  exact ⟨.ok second, .bind (.const fun _ => hsecond) (.const fun _ => rfl)⟩

/-- `self.parent` finishes. -/
theorem parent_finishes (hsound : w.Sound) (href : ref < w.handles.length) :
    Finishes (fun _ => parent ref) w := by
  refine read_finishes hsound href (fun h tree hrec => ?_) fun p => ?_
  · obtain ⟨n, hn⟩ := hsound.get hrec
    have hget : tree.get h.node = .ok n := Slab.index_eq_ok.mpr hn
    exact ⟨_, .bind (.bind (.const fun _ => hget) (.const fun _ => rfl)) (.const fun _ => rfl)⟩
  · obtain ⟨_ | id, version⟩ := p
    · exact .const rfl
    · exact (share_finishes href id version).map _

/-! ## Methods that write -/

/-- Assigning a value finishes. -/
theorem setValue_finishes (hsound : w.Sound) (href : ref < w.handles.length) (value : String) :
    Finishes (fun _ => setValue ref value) w := by
  refine withTreeMut_finishes hsound href fun h tree hrec => ?_
  obtain ⟨n, hn⟩ := hsound.get hrec
  have hget : tree.get h.node = .ok n := Slab.index_eq_ok.mpr hn
  cases hatom : n.isAtom with
  | false =>
      refine ⟨(.error (.typeError "cannot set value on a list node"), tree), ?_⟩
      refine .bind (.const fun _ => hget) (.const fun _ => ?_)
      simp only [hatom]
      rfl
  | true =>
      have hmodify := Slab.modify_of_live (hsound.live hrec)
        fun n => { n with kind := .atom (Atom.new value) }
      refine ⟨(.ok (), tree.withValue h.node value), ?_⟩
      refine .bind (.const fun _ => hget) (.const fun _ => ?_)
      simp only [hatom, Bool.not_true, Bool.false_eq_true, if_false, hmodify]
      rfl

/-- Allocating a node and creating a handle to it finishes. -/
theorem alloc_finishes (hsound : w.Sound) (href : ref < w.handles.length)
    {alloc : Tree → Exec (Tree × NodeId)}
    (halloc : ∀ tree : Tree, tree.nodes.WellFormed → ∃ tree' id, alloc tree = .ok (tree', id)) :
    Finishes (fun _ => do
      let (id, version) ← withTreeMut ref fun tree _ => do
        let (tree, id) ← alloc tree
        return ((.ok (id, tree.version) : Except PyErr (NodeId × UInt64)), tree)
      share ref id version) w := by
  refine .bind (withTreeMut_finishes hsound href fun h tree hrec => ?_) ?_
  · obtain ⟨tree', id, hok⟩ := halloc tree (hsound.consistent hrec).slab
    exact ⟨_, .bind (.const fun _ => hok) (.const fun _ => rfl)⟩
  · rintro ⟨id, version⟩ w₁ hanswers
    obtain ⟨fuel, hfuel⟩ := hanswers.exists_fuel
    obtain ⟨h, tree, tree', -, -, rfl⟩ := withTreeMut_eq_ok.mp hfuel
    refine share_finishes ?_ id version
    rw [World.length_handles_refreshed]
    exact href

/-- `remove` finishes. -/
theorem remove_finishes (hsound : w.Sound) (href : ref < w.handles.length) :
    Finishes (fun fuel => remove fuel ref) w := by
  refine withTreeMut_finishes hsound href fun h tree hrec => ?_
  by_cases hroot : h.node = tree.root
  · refine ⟨(.error (.valueError "cannot remove the root node"), tree), .const fun _ => ?_⟩
    rw [if_pos hroot]
    rfl
  · obtain ⟨tree', hanswers, -⟩ := remove_consistent (hsound.consistent hrec) (hsound.live hrec)
    simp only [if_neg hroot]
    exact ⟨_, .bind hanswers (.const fun _ => rfl)⟩

/-- `clone` finishes. -/
theorem cloneNode_finishes (hsound : w.Sound) (href : ref < w.handles.length) :
    Finishes (fun fuel => cloneNode fuel ref) w := by
  refine .bind (withTree_finishes hsound href fun h tree hrec => ?_) fun _ _ _ => .const rfl
  obtain ⟨copy, hclone⟩ := cloneSubtree_total (hsound.consistent hrec) (hsound.live hrec)
  exact ⟨_, .bind hclone (.const fun _ => rfl)⟩

/-- `extract` finishes. -/
theorem extract_finishes (hsound : w.Sound) (href : ref < w.handles.length) :
    Finishes (fun fuel => extract fuel ref) w := by
  refine .bind (withTreeMut_finishes hsound href fun h tree hrec => ?_) fun _ _ _ => .const rfl
  have hcons := hsound.consistent hrec
  by_cases hroot : h.node = tree.root
  · refine ⟨(.error (.valueError "cannot extract the root node"), tree), .const fun _ => ?_⟩
    rw [if_pos hroot]
    rfl
  · obtain ⟨copy, hclone⟩ := cloneSubtree_total hcons (hsound.live hrec)
    obtain ⟨tree', hremove, -⟩ := remove_consistent hcons (hsound.live hrec)
    have hextract : Answers (fun fuel => extractSubtree fuel tree h.node) (tree', copy) := by
      refine .bind hclone ?_
      simp only [if_neg hroot]
      exact .bind hremove (.const fun _ => rfl)
    simp only [if_neg hroot]
    exact ⟨_, .bind hextract (.const fun _ => rfl)⟩

/-! ## Methods that attach -/

/-- Looking up the receiver and the child of a call that attaches, and going on if they share their
tree. -/
theorem sameTree_finishes {α : Type} {child : HandleRef} {g : ℕ → Handle → Handle → PyM α}
    {x : Handle} (hh : w.handles[ref]? = some h) (hx : w.handles[child]? = some x)
    (hg : h.tree = x.tree → Finishes (fun fuel => g fuel h x) w) :
    Finishes (fun fuel => do
      let h ← PyM.handle ref
      let c ← PyM.handle child
      assertSameTree h.tree c.tree
      g fuel h c) w := by
  refine .handle_bind hh (.handle_bind hx ?_)
  by_cases hsame : h.tree = x.tree
  · exact .return_bind (assertSameTree_pass hsame w) (hg hsame)
  · exact .raise_bind (assertSameTree_raise hsame w)

/-- Attaching finishes, when the operation ends on every receiver. -/
theorem attach_finishes (hsound : w.Sound) (href : ref < w.handles.length)
    {op : ℕ → Tree → NodeId → Exec Tree}
    (hop : ∀ h tree, w.Receives ref h tree →
      ∃ tree', Answers (fun fuel => op fuel tree h.node) tree') :
    Finishes (fun fuel => withTreeMut ref fun tree node => do
      return ((.ok () : Except PyErr Unit), ← op fuel tree node)) w := by
  refine withTreeMut_finishes hsound href fun h tree hrec => ?_
  obtain ⟨tree', hanswers⟩ := hop h tree hrec
  exact ⟨_, .bind hanswers (.const fun _ => rfl)⟩

end SExp

/-- **What a call may attach**: a live node that is neither the receiver nor above it, and behind a
child of the receiver other than that node. -/
def Call.AttachesSane (w : World) (c : Call) : Prop :=
  c.AttachesOnly (fun tree parent op child => tree.Live child ∧ op.Sane tree parent child) w

/-- An attachment that a call may make ends. -/
theorem Call.AttachesSane.run_total (hattaches : c.AttachesSane w) (hsound : w.Sound)
    (hself : c.self? = some self) {op : Attachment} {child : NodeId} (hrec : w.Receives self h tree)
    (hop : w.Attaching h tree c op child) :
    ∃ tree', Answers (fun fuel => op.run fuel tree h.node child) tree' := by
  obtain ⟨hlive, hbelow, hfits⟩ := hattaches self h tree op child hself hrec hop
  obtain ⟨tree', hanswers, -⟩ := Attachment.run_consistent op (hsound.consistent hrec)
    (hsound.live hrec) hlive hbelow hfits
  exact ⟨tree', hanswers⟩

namespace SExp

/-- `append` finishes. -/
theorem append_finishes {child : HandleRef} (hsound : w.Sound) (href : ref < w.handles.length)
    (hchild : child < w.handles.length) (hattaches : (Call.append ref child).AttachesSane w) :
    Finishes (fun fuel => append fuel ref child) w := by
  obtain ⟨h, hh⟩ : ∃ h, w.handles[ref]? = some h := ⟨_, List.getElem?_eq_getElem href⟩
  obtain ⟨x, hx⟩ : ∃ x, w.handles[child]? = some x := ⟨_, List.getElem?_eq_getElem hchild⟩
  refine sameTree_finishes hh hx fun hsame => attach_finishes hsound href fun k tree hrec => ?_
  obtain rfl := Option.some.inj (hh.symm.trans hrec.handle_eq)
  exact hattaches.run_total hsound rfl hrec (.append hx hsame)

/-- `prepend` finishes. -/
theorem prepend_finishes {child : HandleRef} (hsound : w.Sound) (href : ref < w.handles.length)
    (hchild : child < w.handles.length) (hattaches : (Call.prepend ref child).AttachesSane w) :
    Finishes (fun fuel => prepend fuel ref child) w := by
  obtain ⟨h, hh⟩ : ∃ h, w.handles[ref]? = some h := ⟨_, List.getElem?_eq_getElem href⟩
  obtain ⟨x, hx⟩ : ∃ x, w.handles[child]? = some x := ⟨_, List.getElem?_eq_getElem hchild⟩
  refine sameTree_finishes hh hx fun hsame => attach_finishes hsound href fun k tree hrec => ?_
  obtain rfl := Option.some.inj (hh.symm.trans hrec.handle_eq)
  exact hattaches.run_total hsound rfl hrec (.prepend hx hsame)

/-- `insert_after` finishes. -/
theorem insertAfter_finishes {after : Option HandleRef} {child : HandleRef} (hsound : w.Sound)
    (href : ref < w.handles.length) (hchild : child < w.handles.length)
    (hafter : ∀ a, after = some a → a < w.handles.length)
    (hattaches : (Call.insertAfter ref after child).AttachesSane w) :
    Finishes (fun fuel => insertAfter fuel ref after child) w := by
  obtain ⟨h, hh⟩ : ∃ h, w.handles[ref]? = some h := ⟨_, List.getElem?_eq_getElem href⟩
  obtain ⟨x, hx⟩ : ∃ x, w.handles[child]? = some x := ⟨_, List.getElem?_eq_getElem hchild⟩
  refine sameTree_finishes hh hx fun hsame => ?_
  rcases after with _ | after
  · have hnone : afterHandle h.tree none w = .ok (.ok none, w) := rfl
    refine .return_bind hnone (attach_finishes hsound href fun k tree hrec => ?_)
    obtain rfl := Option.some.inj (hh.symm.trans hrec.handle_eq)
    exact hattaches.run_total hsound rfl hrec (.insertFirst hx hsame)
  · obtain ⟨a, ha⟩ : ∃ a, w.handles[after]? = some a :=
      ⟨_, List.getElem?_eq_getElem (hafter after rfl)⟩
    by_cases hsame' : h.tree = a.tree
    · refine .return_bind (afterHandle_apply ha hsame') ?_
      refine withTreeMut_finishes hsound href fun k tree hrec => ?_
      obtain rfl := Option.some.inj (hh.symm.trans hrec.handle_eq)
      cases hstale : a.isStale tree with
      | true =>
          simp only [Option.any_some, hstale, if_true]
          exact ⟨_, .const fun _ => rfl⟩
      | false =>
          obtain ⟨tree', hanswers⟩ :=
            hattaches.run_total hsound rfl hrec (.insertBehind hx hsame ha hsame' hstale)
          simp only [Option.any_some, hstale, Bool.false_eq_true, if_false]
          exact ⟨_, .bind hanswers (.const fun _ => rfl)⟩
    · exact .raise_bind (afterHandle_raise ha hsame')

end SExp

/-- Advancing an iterator finishes. -/
theorem SExpIter.step_finishes (hsound : w.Sound) (href : ref < w.iters.length) :
    Finishes (fun _ => SExpIter.step ref) w := by
  obtain ⟨it, hit⟩ : ∃ it, w.iters[ref]? = some it := ⟨_, List.getElem?_eq_getElem href⟩
  refine .return_bind (PyM.iter_apply hit) ?_
  rcases hnext : it.next with _ | current
  · exact .const rfl
  · obtain ⟨tree, ht, -, hlive⟩ :=
      hsound.snapshots.iters it (List.mem_of_getElem? hit) current hnext
    refine .treeAt_bind ht ?_
    by_cases hversion : tree.version = it.version
    · obtain ⟨n, hn⟩ := Option.isSome_iff_exists.mp (hlive hversion.symm)
      have hget : tree.get current = .ok n := Slab.index_eq_ok.mpr hn
      simp only [if_neg (not_not.mpr hversion), hget]
      exact .return_bind (PyM.lift_eq_ok.mpr ⟨n, rfl, rfl, rfl⟩) (.const rfl)
    · simp only [if_pos hversion]
      exact .const rfl

/-! ## All calls -/

/-- **Every call of a sound world finishes**, other than `parse`, when what it attaches is live and
sane. -/
theorem call_finishes (hsound : w.Sound) (hexists : c.Exists w)
    (hparse : ∀ source, c ≠ .parse source)
    (hattaches : c.AttachesSane w) : Finishes (fun fuel => call fuel c) w := by
  obtain ⟨hhandles, hiters⟩ := hexists
  have hself : ∀ self, c.self? = some self → self < w.handles.length := fun self hself =>
    hhandles self (by cases c <;> cases hself <;> simp [Call.handles])
  cases c with
  | parse source => exact absurd rfl (hparse source)
  | new => exact .map (.const rfl) _
  | repr self => exact .map (SExp.repr_finishes hsound (hself self rfl)) _
  | len self => exact .map (SExp.field_finishes hsound (hself self rfl) _) _
  | eq self other =>
      have hother : ∀ o ∈ other.handles, o < w.handles.length := fun o ho =>
        hhandles o (List.mem_cons_of_mem _ ho)
      exact .map (SExp.eq_finishes hsound (hself self rfl) hother) _
  | contains self item =>
      have hitem : ∀ o ∈ item.handles, o < w.handles.length := fun o ho =>
        hhandles o (List.mem_cons_of_mem _ ho)
      exact .map (SExp.contains_finishes hsound (hself self rfl) hitem) _
  | getItem self key => exact .map (SExp.getItem_finishes hsound (hself self rfl) key) _
  | iter self => exact .map (SExp.iter_finishes hsound (hself self rfl)) _
  | next it =>
      have hit : it < w.iters.length := hiters it (by simp [Call.iters])
      exact .map (SExpIter.step_finishes hsound hit) _
  | head self => exact .map (SExp.head_finishes hsound (hself self rfl)) _
  | tail self => exact .map (SExp.tail_finishes hsound (hself self rfl)) _
  | isAtom self => exact .map (SExp.field_finishes hsound (hself self rfl) _) _
  | value self => exact .map (SExp.value_finishes hsound (hself self rfl)) _
  | setValue self value => exact .map (SExp.setValue_finishes hsound (hself self rfl) value) _
  | parent self => exact .map (SExp.parent_finishes hsound (hself self rfl)) _
  | newAtom self value =>
      exact .map (SExp.alloc_finishes hsound (hself self rfl) fun tree hwf =>
        allocAtom_total hwf (Atom.new value)) _
  | newList self =>
      exact .map (SExp.alloc_finishes hsound (hself self rfl) fun tree hwf => allocList_total hwf) _
  | append self child =>
      have hchild : child < w.handles.length := hhandles child (by simp [Call.handles])
      exact .map (SExp.append_finishes hsound (hself self rfl) hchild hattaches) _
  | prepend self child =>
      have hchild : child < w.handles.length := hhandles child (by simp [Call.handles])
      exact .map (SExp.prepend_finishes hsound (hself self rfl) hchild hattaches) _
  | insertAfter self after child =>
      have hchild : child < w.handles.length := hhandles child (by simp [Call.handles])
      have hafter : ∀ a, after = some a → a < w.handles.length := fun a ha =>
        hhandles a (by simp [Call.handles, ha])
      exact .map (SExp.insertAfter_finishes hsound (hself self rfl) hchild hafter hattaches) _
  | remove self => exact .map (SExp.remove_finishes hsound (hself self rfl)) _
  | clone self => exact .map (SExp.cloneNode_finishes hsound (hself self rfl)) _
  | extract self => exact .map (SExp.extract_finishes hsound (hself self rfl)) _

/-! ## Runs -/

/-- **The condition on an event**: what it attaches is live and sane, it removes no node that the
root is below, no version overflows, and no tree gets more slots than there are keys. -/
structure ApiEvent.Calm (e : ApiEvent) : Prop where
  /-- What is attached. -/
  attaches : e.label.call.AttachesSane e.before
  /-- What is removed. -/
  removes :
    e.label.call.RemovesOnly (fun tree node => ¬ tree.AncestorOrSelf node tree.root) e.before
  /-- The version does not overflow. -/
  overflow : e.label.call.NoOverflow e.before
  /-- The trees are small. -/
  small : e.after.Small

/-- A calm event keeps the world sound. -/
theorem ApiEvent.Calm.sound {e : ApiEvent} (hcalm : e.Calm) (hsound : e.before.Sound)
    (he : Effect fuel e.before e.label.call v e.after) : e.after.Sound :=
  he.sound hsound (hcalm.attaches.imp fun _ _ _ _ hop => hop.2) hcalm.removes hcalm.overflow
    hcalm.small

/-- **Calm runs lead to sound worlds.** -/
theorem sound_of_run (hrun : ApiRun events w) (hcalm : ∀ e ∈ events, e.Calm) : w.Sound :=
  hrun.invariant World.sound_empty (fun _ _ _ he hbefore heffect => he.sound hbefore heffect) hcalm

/-- **No child count can underflow**: a live node from which a child can be unlinked counts at least
one child. -/
def Tree.CountsChildren (tree : Tree) : Prop :=
  ∀ x p n, tree.parentOf x = some p → tree.nodes.get p = some n → 0 < n.childCount.toNat

/-- The nodes of a consistent tree count their children. -/
theorem Tree.Consistent.countsChildren (hcons : tree.Consistent) : tree.CountsChildren := by
  intro x p n hparent hn
  obtain ⟨F, hF⟩ := hcons.exists_represents
  have hmem : x ∈ F.children p := by
    rw [F.mem_children, ← hF.parentOf_eq]
    exact hparent
  rw [← (hF.isChildList hn).length_eq]
  exact List.length_pos_of_mem hmem

/-- **No call panics.** After every calm run, every further call other than `parse` that attaches a
live node sanely, if any, gives a value or raises, and no child count can underflow. -/
theorem no_panic_of_run (hrun : ApiRun events w) (hcalm : ∀ e ∈ events, e.Calm) :
    (∀ c : Call, c.Exists w → (∀ source, c ≠ .parse source) → c.AttachesSane w →
      ∃ r w', Answers (fun fuel => call fuel c w) (r, w')) ∧
    w.AllTrees Tree.CountsChildren := by
  have hsound := sound_of_run hrun hcalm
  constructor
  · intro c hexists hparse hattaches
    exact call_finishes hsound hexists hparse hattaches
  · intro tree htree
    exact (hsound.wellFormed tree htree).toConsistent.countsChildren

/-- The run `t = SExp(); l = t.new_list(); t.append(l)` is calm. -/
theorem eventsNested_calm : ∀ e ∈ eventsNested, e.Calm := by
  have hattaches := eventsNested_attachesOnly
    (fun tree parent op child => tree.Live child ∧ op.Sane tree parent child)
    ⟨rfl, Tree.not_ancestorOrSelf (by decide) rfl, trivial⟩
  have hremoves : ∀ e ∈ eventsNested, e.label.call.removes = false :=
    forall_eventsNested rfl rfl rfl
  intro e he
  refine ⟨hattaches e he, ?_, eventsNested_noOverflow e he, eventsNested_small e he⟩
  intro self h tree _ _ hremove
  rw [hremoves e he] at hremove
  cases hremove

/-- The run `t = parse("((a (b)) c ())")` is calm. -/
theorem eventsParsed_calm : ∀ e ∈ eventsParsed, e.Calm := by
  intro e he
  have hattaches : e.label.call.AttachesSane e.before := eventsParsed_attachesOnly _ e he
  have hsmall := eventsParsed_small e he
  obtain rfl := List.mem_singleton.mp he
  refine ⟨hattaches, fun self h tree _ _ hremove => ?_, .of_not_bumps rfl, hsmall⟩
  cases hremove

/-- `no_panic_of_run` at the text of a list in a list. -/
theorem no_panic_of_run_nested :
    (∃ r w', Answers (fun fuel => call fuel (.repr 0) nested) (r, w')) ∧
      nested.AllTrees Tree.CountsChildren := by
  obtain ⟨hcalls, hcounts⟩ := no_panic_of_run run_nested eventsNested_calm
  refine ⟨hcalls (.repr 0) ⟨?_, nofun⟩ nofun ?_, hcounts⟩
  · simp [Call.handles, nested]
  · exact Call.attachesOnly_of_none fun _ _ _ _ hop => by cases hop

/-- **A call panics**: after `t = SExp()`, `t.append(t)` does not pass the assertion of `append`. -/
theorem append_self_panics :
    ApiRun [⟨World.empty, ⟨.new, .ok (.sexp 0)⟩, oneList⟩] oneList ∧
      (Call.append 0 0).Exists oneList ∧
      ∀ fuel, call fuel (.append 0 0) oneList = .error (.panic .appendCycle) := by
  refine ⟨Run.nil.cons step_oneList, ⟨?_, nofun⟩, fun fuel => rfl⟩
  simp [Call.handles, oneList]

end Sexp
