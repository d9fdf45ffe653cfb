import Sexp.Core.CycleGuard

/-! # Attaching refines moving

On a tree that represents a forest, `append`, `prepend` and `insert_after` return whenever the
child is neither the parent nor an ancestor of it (and the sibling is a child of the parent other
than the child), and the tree they return represents the forest in which the child has moved. -/

namespace Sexp

open Library (OrderedForest Answers FuelMono)

variable {tree tree' tree₁ : Tree} {F : OrderedForest NodeId NodeType} {fuel : Nat}
  {parent child sibling : NodeId} {n : Node}

/-! ## Assignments to live nodes succeed -/

/-- Two slabs have the same live keys. -/
def Slab.SameLive {α : Type} (slab slab' : Slab α) : Prop :=
  ∀ id, (slab'.get id).isSome = (slab.get id).isSome

/-- **A write to live nodes**: it succeeds on every slab with the same live keys, and keeps them. -/
def Slab.Admits {α : Type} (slab : Slab α) (write : Slab α → Exec (Slab α)) : Prop :=
  ∀ s, slab.SameLive s → ∃ s', write s = .ok s' ∧ slab.SameLive s'

namespace Slab.Admits

variable {slab s : Slab Node} {write : Slab Node → Exec (Slab Node)}

/-- **A write to live nodes and what follows it** succeeds, if what follows does on every slab with
the same live keys. -/
theorem bind {β : Type} {rest : Slab Node → Exec β} (h : slab.Admits write)
    (hs : slab.SameLive s) (hrest : ∀ s', slab.SameLive s' → ∃ b, rest s' = .ok b) :
    ∃ b, (write s >>= rest) = .ok b := by
  obtain ⟨s', hwrite, hs'⟩ := h s hs
  obtain ⟨b, hb⟩ := hrest s' hs'
  exact ⟨b, by rw [hwrite, Library.ok_bind, hb]⟩

/-- Two writes in a row. -/
theorem seq {write' : Slab Node → Exec (Slab Node)} (h : slab.Admits write)
    (h' : slab.Admits write') : slab.Admits fun s => write s >>= write' := by
  intro s hs
  obtain ⟨s₁, hwrite, hs₁⟩ := h s hs
  obtain ⟨s₂, hwrite', hs₂⟩ := h' s₁ hs₁
  refine ⟨s₂, ?_, hs₂⟩
  show (write s >>= write') = .ok s₂
  rw [hwrite, Library.ok_bind, hwrite']

/-- Writing nothing. -/
theorem pure : slab.Admits fun s => .ok s := fun s hs => ⟨s, rfl, hs⟩

/-- Assigning to a live node. -/
theorem modify {key : Key} (hlive : (slab.get key).isSome) (f : Node → Node) :
    slab.Admits fun s => s.modify key f := by
  intro s hs
  have hkey : (s.get key).isSome := (hs key).trans hlive
  exact ⟨_, Slab.modify_of_live hkey f,
    fun id => (Slab.isSome_get_update s key f id).trans (hs id)⟩

/-- Writing a forward link, when the node before the gap and the parent are live. -/
theorem linkForward {previous parent : Option NodeId} (x : Option NodeId)
    (hprevious : ∀ q, previous = some q → (slab.get q).isSome)
    (hparent : ∀ p, parent = some p → (slab.get p).isSome) :
    slab.Admits fun s => linkForward s previous parent x := by
  rcases previous with _ | q
  · rcases parent with _ | p
    · exact .pure
    · exact .modify (hparent p rfl) _
  · exact .modify (hprevious q rfl) _

/-- Writing a backward link, when the node after the gap and the parent are live. -/
theorem linkBackward {next parent : Option NodeId} (x : Option NodeId)
    (hnext : ∀ q, next = some q → (slab.get q).isSome)
    (hparent : ∀ p, parent = some p → (slab.get p).isSome) :
    slab.Admits fun s => linkBackward s next parent x := by
  rcases next with _ | q
  · rcases parent with _ | p
    · exact .pure
    · exact .modify (hparent p rfl) _
  · exact .modify (hnext q rfl) _

/-- Counting down, when the parent is live. -/
theorem countDown {parent : Option NodeId}
    (hparent : ∀ p, parent = some p → (slab.get p).isSome) :
    slab.Admits fun s => countDown s parent := by
  rcases parent with _ | p
  · exact .pure
  · exact .modify (hparent p rfl) _

end Slab.Admits

/-! ## Detaching -/

/-- Detaching a live node succeeds on a tree that represents a forest. -/
theorem unlink_total (h : tree.Represents F) (hchild : tree.Live child) :
    ∃ tree₁, unlink tree child = .ok tree₁ := by
  obtain ⟨n, hn⟩ := Option.isSome_iff_exists.mp hchild
  -- every node that is written to is linked to the child
  have hprevious : ∀ q, n.previousSibling = some q → tree.Live q := fun q hq =>
    h.links_live hn (by simp [Node.links, hq])
  have hnext : ∀ q, n.nextSibling = some q → tree.Live q := fun q hq =>
    h.links_live hn (by simp [Node.links, hq])
  have hparent : ∀ p, n.parent = some p → tree.Live p := fun p hp =>
    h.links_live hn (by simp [Node.links, hp])
  rw [unlink, Slab.index_eq_ok.mpr hn, Library.ok_bind]
  refine (Slab.Admits.linkForward _ hprevious hparent).bind (fun _ => rfl) fun s₁ hs₁ => ?_
  refine (Slab.Admits.linkBackward _ hnext hparent).bind hs₁ fun s₂ hs₂ => ?_
  refine (Slab.Admits.countDown hparent).bind hs₂ fun s₃ hs₃ => ?_
  exact (Slab.Admits.modify hchild _).bind hs₃ fun s₄ _ => ⟨_, rfl⟩

/-- **`unlink` refines `detach`.** -/
theorem unlink_represents (h : tree.Represents F) (hchild : tree.Live child) :
    ∃ tree₁, unlink tree child = .ok tree₁ ∧ tree.SameFrame tree₁ ∧
      tree₁.Represents (F.detach child) ∧
      (tree.nodes.WellFormed → tree₁.nodes.WellFormed) := by
  obtain ⟨tree₁, hunlink⟩ := unlink_total h hchild
  obtain ⟨old, hold, hframe, hrewrites⟩ := unlink_ok hunlink
  exact ⟨tree₁, hunlink, hframe, h.detach hold hrewrites, hrewrites.wellFormed⟩

/-- Detaching a node if it is attached refines `detach`. -/
theorem unlinkIfAttached_represents (h : tree.Represents F) (hchild : tree.Live child) :
    ∃ tree₁, unlinkIfAttached tree child = .ok tree₁ ∧ tree.SameFrame tree₁ ∧
      tree₁.Represents (F.detach child) ∧
      (tree.nodes.WellFormed → tree₁.nodes.WellFormed) := by
  obtain ⟨n, hn⟩ := Option.isSome_iff_exists.mp hchild
  have hreturns : ∃ tree₁, unlinkIfAttached tree child = .ok tree₁ := by
    rw [unlinkIfAttached, Slab.index_eq_ok.mpr hn, Library.ok_bind]
    split
    · exact unlink_total h hchild
    · exact ⟨tree, rfl⟩
  obtain ⟨tree₁, hunlink⟩ := hreturns
  obtain ⟨old, hold, hframe, hrewrites⟩ := unlinkIfAttached_ok hunlink
  exact ⟨tree₁, hunlink, hframe, h.cut hold hrewrites, hrewrites.wellFormed⟩

/-! ## Attaching -/

/-- Moving a node in the forest, read back from an attachment in the tree without the node. -/
theorem Tree.Attached.represents_move {previous next : Option NodeId}
    (hattached : tree₁.Attached tree' parent child previous next)
    (h₁ : tree₁.Represents (F.detach child)) {xs ys : List NodeId}
    (hparent : (F.label parent).isSome) (hchild : (F.label child).isSome)
    (hbelow : parent ∉ F.subtree child) (hgap : (F.children parent).erase child = xs ++ ys)
    (hprevious : previous = xs.getLast?) (hnext : next = ys.head?) :
    tree'.Represents (F.move parent child xs ys hparent hchild hbelow hgap) := by
  subst hprevious hnext
  exact h₁.place hparent hchild OrderedForest.parent_detach_self
    (by rwa [OrderedForest.subtree_detach_self]) hgap hattached.rewrites

/-- The common start of the attaching operations: when the guard answers that there is no cycle and
the child is detached, what is left is the rest of the operation. -/
theorem guarded_eq {site : Panic} {rest : Tree → Exec Tree}
    (hguard : wouldCreateCycle fuel tree parent child = .ok false)
    (hunlink : unlinkIfAttached tree child = .ok tree₁) :
    (do
      assertThat (!(← wouldCreateCycle fuel tree parent child)) site
      let tree ← unlinkIfAttached tree child
      rest tree) = rest tree₁ := by
  rw [hguard, Library.ok_bind, hunlink]
  rfl

/-- The common start of the attaching operations is monotone in the fuel. -/
theorem guarded_mono {site : Panic} {rest : ℕ → Tree → Exec Tree}
    (hrest : ∀ tree₁, FuelMono fun fuel => rest fuel tree₁) :
    FuelMono fun fuel => (do
      assertThat (!(← wouldCreateCycle fuel tree parent child)) site
      let tree ← unlinkIfAttached tree child
      rest fuel tree) :=
  .bind (wouldCreateCycle_mono tree parent child) fun _ =>
    .bind (.const _) fun _ => .bind (.const _) hrest

/-- More fuel does not change the result of `append`. -/
theorem append_mono (tree : Tree) (parent child : NodeId) :
    FuelMono fun fuel => append fuel tree parent child :=
  guarded_mono fun _ => .const _

/-- More fuel does not change the result of `prepend`. -/
theorem prepend_mono (tree : Tree) (parent child : NodeId) :
    FuelMono fun fuel => prepend fuel tree parent child :=
  guarded_mono fun _ => .const _

/-- More fuel does not change the result of `insertAfter`. -/
theorem insertAfter_mono (tree : Tree) (parent : NodeId) (after : Option NodeId)
    (child : NodeId) : FuelMono fun fuel => insertAfter fuel tree parent after child := by
  rcases after with _ | sibling
  · exact guarded_mono fun tree₁ => prepend_mono tree₁ parent child
  · exact guarded_mono fun _ => .const _

/-- The common start of the attaching operations returns when no cycle would be created: the guard
lets the pair pass, and the child is detached. -/
theorem attach_start (h : tree.Represents F) (hparent : (F.label parent).isSome)
    (hchild : (F.label child).isSome) (hbelow : parent ∉ F.subtree child) :
    ∃ tree₁ fuel, wouldCreateCycle fuel tree parent child = .ok false ∧
      unlinkIfAttached tree child = .ok tree₁ ∧ tree₁.Represents (F.detach child) ∧
      ∀ {id}, (F.label id).isSome → tree₁.Live id := by
  have hchild' : tree.Live child := h.live_iff.mpr hchild
  obtain ⟨tree₁, hunlink, -, h₁, -⟩ := unlinkIfAttached_represents h hchild'
  obtain ⟨fuel, hguard⟩ :=
    (wouldCreateCycle_answers_false h (h.live_iff.mpr hparent) hchild' hbelow).exists_fuel
  exact ⟨tree₁, fuel, hguard, hunlink, h₁, fun hid => h₁.live_iff.mpr hid⟩

/-- **`append` refines moving a node to the end of a child list.** -/
theorem append_represents (h : tree.Represents F) (hparent : (F.label parent).isSome)
    (hchild : (F.label child).isSome) (hbelow : parent ∉ F.subtree child) :
    ∃ tree', Answers (fun fuel => append fuel tree parent child) tree' ∧
      tree'.Represents (F.move parent child ((F.children parent).erase child) [] hparent hchild
        hbelow (List.append_nil _).symm) := by
  obtain ⟨tree₁, fuel, hguard, hunlink, h₁, hlive₁⟩ := attach_start h hparent hchild hbelow
  obtain ⟨p, hp⟩ := Option.isSome_iff_exists.mp (hlive₁ hparent)
  obtain ⟨tree', happend⟩ : ∃ tree', append fuel tree parent child = .ok tree' := by
    rw [append, guarded_eq hguard hunlink, Slab.index_eq_ok.mpr hp]
    have hprevious : ∀ q, p.lastChild = some q → tree₁.Live q := fun q hq =>
      h₁.links_live hp (by simp [Node.links, hq])
    have hparent₁ : ∀ q, some parent = some q → tree₁.Live q := fun q hq =>
      Option.some.inj hq ▸ hlive₁ hparent
    refine (Slab.Admits.modify (hlive₁ hchild) _).bind (fun _ => rfl) fun s₁ hs₁ => ?_
    refine (Slab.Admits.linkForward _ hprevious hparent₁).bind hs₁ fun s₂ hs₂ => ?_
    refine (Slab.Admits.modify (hlive₁ hparent) _).bind hs₂ fun s₃ hs₃ => ?_
    exact (Slab.Admits.modify (hlive₁ hparent) _).bind hs₃ fun s₄ _ => ⟨_, rfl⟩
  refine ⟨tree', (append_mono tree parent child).answers happend, ?_⟩
  -- the writes are read back as one attachment, at the child list of the detached forest
  obtain ⟨-, tree₂, p', hunlink', hp', hattached⟩ := append_ok happend
  obtain rfl : tree₁ = tree₂ := by simpa [hunlink] using hunlink'
  obtain rfl : p = p' := by simpa [hp] using hp'
  obtain ⟨-, heq⟩ := h₁.eq_nodeOf hp
  exact hattached.represents_move h₁ hparent hchild hbelow _ (congrArg Node.lastChild heq) rfl

/-- **`prepend` refines moving a node to the start of a child list.** -/
theorem prepend_represents (h : tree.Represents F) (hparent : (F.label parent).isSome)
    (hchild : (F.label child).isSome) (hbelow : parent ∉ F.subtree child) :
    ∃ tree', Answers (fun fuel => prepend fuel tree parent child) tree' ∧
      tree'.Represents (F.move parent child [] ((F.children parent).erase child) hparent hchild
        hbelow (List.nil_append _).symm) := by
  obtain ⟨tree₁, fuel, hguard, hunlink, h₁, hlive₁⟩ := attach_start h hparent hchild hbelow
  obtain ⟨p, hp⟩ := Option.isSome_iff_exists.mp (hlive₁ hparent)
  obtain ⟨tree', hprepend⟩ : ∃ tree', prepend fuel tree parent child = .ok tree' := by
    rw [prepend, guarded_eq hguard hunlink, Slab.index_eq_ok.mpr hp]
    have hnext : ∀ q, p.firstChild = some q → tree₁.Live q := fun q hq =>
      h₁.links_live hp (by simp [Node.links, hq])
    have hparent₁ : ∀ q, some parent = some q → tree₁.Live q := fun q hq =>
      Option.some.inj hq ▸ hlive₁ hparent
    refine (Slab.Admits.modify (hlive₁ hchild) _).bind (fun _ => rfl) fun s₁ hs₁ => ?_
    refine (Slab.Admits.linkBackward _ hnext hparent₁).bind hs₁ fun s₂ hs₂ => ?_
    refine (Slab.Admits.modify (hlive₁ hparent) _).bind hs₂ fun s₃ hs₃ => ?_
    exact (Slab.Admits.modify (hlive₁ hparent) _).bind hs₃ fun s₄ _ => ⟨_, rfl⟩
  refine ⟨tree', (prepend_mono tree parent child).answers hprepend, ?_⟩
  -- the writes are read back as one attachment, at the child list of the detached forest
  obtain ⟨-, tree₂, p', hunlink', hp', hattached⟩ := prepend_ok hprepend
  obtain rfl : tree₁ = tree₂ := by simpa [hunlink] using hunlink'
  obtain rfl : p = p' := by simpa [hp] using hp'
  obtain ⟨-, heq⟩ := h₁.eq_nodeOf hp
  exact hattached.represents_move h₁ hparent hchild hbelow _ rfl (congrArg Node.firstChild heq)

/-- **`insert_after` without a sibling refines moving a node to the start of a child list.** -/
theorem insertAfter_none_represents (h : tree.Represents F) (hparent : (F.label parent).isSome)
    (hchild : (F.label child).isSome) (hbelow : parent ∉ F.subtree child) :
    ∃ tree', Answers (fun fuel => insertAfter fuel tree parent none child) tree' ∧
      tree'.Represents (F.move parent child [] ((F.children parent).erase child) hparent hchild
        hbelow (List.nil_append _).symm) := by
  obtain ⟨tree₁, hunlink, -, h₁, -⟩ := unlinkIfAttached_represents h (h.live_iff.mpr hchild)
  have hguard := wouldCreateCycle_answers_false h (h.live_iff.mpr hparent)
    (h.live_iff.mpr hchild) hbelow
  -- the child is parentless by now, so `prepend` detaches nothing
  have hparent₁ : ((F.detach child).label parent).isSome := hparent
  have hchild₁ : ((F.detach child).label child).isSome := hchild
  obtain ⟨tree', hprepend, h'⟩ := prepend_represents h₁ hparent₁ hchild₁
    (by rwa [OrderedForest.subtree_detach_self])
  refine ⟨tree', ?_, ?_⟩
  · obtain ⟨n, hn⟩ := hguard
    obtain ⟨m, hm⟩ := hprepend
    refine ⟨max n m, fun fuel hle => ?_⟩
    exact (guarded_eq (hn fuel (by omega)) hunlink).trans (hm fuel (by omega))
  · have hgap : ((F.detach child).children parent).erase child = (F.children parent).erase child :=
      F.erase_erase_children
    rwa [OrderedForest.move_detach hgap hparent hchild hbelow (List.nil_append _).symm] at h'

/-- **`insert_after` a sibling refines moving a node behind that sibling.** -/
theorem insertAfter_some_represents (h : tree.Represents F) (hparent : (F.label parent).isSome)
    (hchild : (F.label child).isSome) (hbelow : parent ∉ F.subtree child) {xs ys : List NodeId}
    (hgap : (F.children parent).erase child = (xs ++ [sibling]) ++ ys) :
    ∃ tree', Answers (fun fuel => insertAfter fuel tree parent (some sibling) child) tree' ∧
      tree'.Represents (F.move parent child (xs ++ [sibling]) ys hparent hchild hbelow hgap) := by
  obtain ⟨tree₁, fuel, hguard, hunlink, h₁, hlive₁⟩ := attach_start h hparent hchild hbelow
  -- the sibling is still a child of the parent once the child is detached
  have hmem : sibling ∈ (F.detach child).children parent := by
    rw [OrderedForest.children_detach, hgap]
    simp
  have hsibling := (F.detach child).mem_children.mp hmem
  have hlive : tree₁.Live sibling := hlive₁ ((F.detach child).live_child hsibling)
  obtain ⟨s, hs⟩ := Option.isSome_iff_exists.mp hlive
  obtain ⟨tree', hinsert⟩ :
      ∃ tree', insertAfter fuel tree parent (some sibling) child = .ok tree' := by
    rw [insertAfter, guarded_eq hguard hunlink]
    simp only [Slab.index_eq_ok.mpr hs, Library.ok_bind]
    have hnext : ∀ q, s.nextSibling = some q → tree₁.Live q := fun q hq =>
      h₁.links_live hs (by simp [Node.links, hq])
    have hparent₁ : ∀ q, some parent = some q → tree₁.Live q := fun q hq =>
      Option.some.inj hq ▸ hlive₁ hparent
    refine (Slab.Admits.modify (hlive₁ hchild) _).bind (fun _ => rfl) fun s₁ hs₁ => ?_
    refine (Slab.Admits.modify hlive _).bind hs₁ fun s₂ hs₂ => ?_
    refine (Slab.Admits.linkBackward _ hnext hparent₁).bind hs₂ fun s₃ hs₃ => ?_
    exact (Slab.Admits.modify (hlive₁ hparent) _).bind hs₃ fun s₄ _ => ⟨_, rfl⟩
  refine ⟨tree', (insertAfter_mono tree parent (some sibling) child).answers hinsert, ?_⟩
  obtain ⟨-, tree₂, s', hunlink', hs', hattached⟩ := insertAfter_some_ok hinsert
  obtain rfl : tree₁ = tree₂ := by simpa [hunlink] using hunlink'
  obtain rfl : s = s' := by simpa [hs] using hs'
  obtain ⟨-, heq⟩ := h₁.eq_nodeOf hs
  refine hattached.represents_move h₁ hparent hchild hbelow hgap (by simp) ?_
  -- the next sibling of `sibling` once the child is detached
  have hnodup := (F.detach child).nodup_children parent
  rw [OrderedForest.children_detach, hgap, List.append_assoc, List.singleton_append] at hnodup
  have hnext := congrArg Node.nextSibling heq
  simp only [nodeOf, hsibling, Option.bind_some, OrderedForest.children_detach, hgap] at hnext
  rw [hnext, List.append_assoc, List.singleton_append, Library.nextIn_insert hnodup, if_pos rfl]

end Sexp
