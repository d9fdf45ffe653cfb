import Sexp.Core.AnyTree

/-! # Secure roots

The root of a tree is secure when it is live, has no parent and no siblings, and no link to a child
or a sibling names it. This is a local property of the nodes: it asks for no consistency of the
other links, and every mutation keeps it on any tree on which it returns, unless it attaches the
root itself or names the root as a sibling. In particular no removal of another node frees the root:
the walk over what is freed follows links to children and siblings. -/

namespace Sexp

variable {tree tree' tree₁ : Tree} {fuel : Nat} {root id n parent child : NodeId}

/-! ## Nodes -/

/-- A node without parent and siblings. -/
def Node.Free (n : Node) : Prop :=
  n.parent = none ∧ n.previousSibling = none ∧ n.nextSibling = none

/-- A node whose links to children and siblings do not name `root`. -/
structure Node.Avoids (n : Node) (root : NodeId) : Prop where
  /-- The first child. -/
  first : n.firstChild ≠ some root
  /-- The last child. -/
  last : n.lastChild ≠ some root
  /-- The previous sibling. -/
  previous : n.previousSibling ≠ some root
  /-- The next sibling. -/
  next : n.nextSibling ≠ some root

/-- An unlinked node names no node. -/
theorem Node.avoids_unlinked (kind : NodeType) (root : NodeId) :
    (Node.unlinked kind).Avoids root := by
  constructor <;> simp [Node.unlinked]

/-- Detaching another node makes no link to the root. -/
theorem Node.Avoids.detachStep {old m : Node} (hm : m.Avoids root) (hold : old.Avoids root) :
    (Node.detachStep n old id m).Avoids root := by
  -- link by link: each is kept, cleared, or taken over from the detached node
  constructor
  · show (if _ then old.nextSibling else m.firstChild) ≠ some root
    split
    · exact hold.next
    · exact hm.first
  · show (if _ then old.previousSibling else m.lastChild) ≠ some root
    split
    · exact hold.previous
    · exact hm.last
  · show (if id = n then none else if _ then old.previousSibling else m.previousSibling) ≠ some root
    split
    · simp
    · split
      · exact hold.previous
      · exact hm.previous
  · show (if id = n then none else if _ then old.nextSibling else m.nextSibling) ≠ some root
    split
    · simp
    · split
      · exact hold.next
      · exact hm.next

/-- Detaching another node leaves the root without parent and siblings. -/
theorem Node.Free.detachStep {old m : Node} (hm : m.Free) (hold : old.Avoids root)
    (hne : n ≠ root) : (Node.detachStep n old root m).Free := by
  obtain ⟨hparent, hprevious, hnext⟩ := hm
  unfold Node.Free Node.detachStep
  simp [Ne.symm hne, hold.previous, hold.next, hparent, hprevious, hnext]

/-- Attaching another node between others makes no link to the root. -/
theorem Node.Avoids.attachStep {m : Node} {previous next : Option NodeId} (hm : m.Avoids root)
    (hchild : child ≠ root) (hprevious : previous ≠ some root) (hnext : next ≠ some root) :
    (Node.attachStep parent child previous next id m).Avoids root := by
  have hc : some child ≠ some root := fun heq => hchild (Option.some.inj heq)
  -- link by link: each is kept, or set to the child or one of its new neighbours
  constructor
  · show (if _ then some child else m.firstChild) ≠ some root
    split
    · exact hc
    · exact hm.first
  · show (if _ then some child else m.lastChild) ≠ some root
    split
    · exact hc
    · exact hm.last
  · show (if _ then some child else if _ then previous else m.previousSibling) ≠ some root
    split
    · exact hc
    · split
      · exact hprevious
      · exact hm.previous
  · show (if _ then some child else if _ then next else m.nextSibling) ≠ some root
    split
    · exact hc
    · split
      · exact hnext
      · exact hm.next

/-- Attaching another node between others leaves the root without parent and siblings. -/
theorem Node.Free.attachStep {m : Node} {previous next : Option NodeId} (hm : m.Free)
    (hchild : child ≠ root) (hprevious : previous ≠ some root) (hnext : next ≠ some root) :
    (Node.attachStep parent child previous next root m).Free := by
  obtain ⟨hp, hprev, hn⟩ := hm
  unfold Node.Free Node.attachStep
  simp [Ne.symm hchild, hprevious, hnext, hp, hprev, hn]

/-! ## Trees -/

/-- **A secure root.** -/
structure Tree.RootSecure (tree : Tree) : Prop where
  /-- The free list is consistent. -/
  slab : tree.nodes.WellFormed
  /-- The root is live, and has neither parent nor siblings. -/
  root_free : ∃ m, tree.nodes.get tree.root = some m ∧ m.Free
  /-- No link to a child or a sibling names the root. -/
  avoids : ∀ id m, tree.nodes.get id = some m → m.Avoids tree.root

namespace Tree.RootSecure

/-- A secure root is live. -/
theorem live (h : tree.RootSecure) : tree.Live tree.root := by
  obtain ⟨m, hm, -⟩ := h.root_free
  rw [Tree.Live, hm]
  rfl

/-- **The parentless root of a well-formed tree is secure.** -/
theorem of_wellFormed (hwf : tree.WellFormed) (hroot : tree.parentOf tree.root = none) :
    tree.RootSecure := by
  obtain ⟨F, hF⟩ := hwf.exists_represents
  obtain ⟨m, hm⟩ := Option.isSome_iff_exists.mp hwf.root_live
  have hparent : m.parent = none := by simpa [Tree.parentOf, hm] using hroot
  -- the root is in no child list
  have hnotMem : ∀ q, tree.root ∉ F.children q := by
    intro q hmem
    rw [F.mem_children, ← hF.parentOf_eq, hroot] at hmem
    cases hmem
  refine ⟨hwf.slab, ⟨m, hm, hparent, hwf.orphan _ m hm hparent⟩, fun id m' hm' => ?_⟩
  obtain ⟨-, heq⟩ := hF.eq_nodeOf hm'
  rw [heq]
  constructor
  · exact fun hfirst => hnotMem id (List.mem_of_mem_head? hfirst)
  · exact fun hlast => hnotMem id (List.mem_of_getLast? hlast)
  · intro hprevious
    obtain ⟨q, -, hq⟩ := Option.bind_eq_some_iff.mp hprevious
    exact hnotMem q (Library.mem_of_prevIn hq)
  · intro hnext
    obtain ⟨q, -, hq⟩ := Option.bind_eq_some_iff.mp hnext
    exact hnotMem q (Library.mem_of_nextIn hq)

/-- Rewriting nodes keeps the root secure, when it leaves the root free and makes no link to it. -/
theorem of_rewrites {g : NodeId → Node → Node} (h : tree.RootSecure)
    (hroot : tree'.root = tree.root) (hg : tree.nodes.Rewrites tree'.nodes g)
    (hfree : ∀ m, m.Free → (g tree.root m).Free)
    (havoids : ∀ id m, m.Avoids tree.root → (g id m).Avoids tree.root) : tree'.RootSecure := by
  obtain ⟨m, hm, hmfree⟩ := h.root_free
  refine ⟨hg.wellFormed h.slab, ⟨g tree.root m, ?_, hfree m hmfree⟩, fun id m' hm' => ?_⟩
  · rw [hroot, hg.get_eq, hm]
    rfl
  · rw [hg.get_eq, Option.map_eq_some_iff] at hm'
    obtain ⟨m₀, hm₀, rfl⟩ := hm'
    rw [hroot]
    exact havoids id m₀ (h.avoids id m₀ hm₀)

/-- Nothing but the nodes and the root counts. -/
theorem of_nodes_eq (h : tree.RootSecure) (hroot : tree'.root = tree.root)
    (hnodes : tree'.nodes = tree.nodes) : tree'.RootSecure := by
  have hrewrites : tree.nodes.Rewrites tree'.nodes fun _ m => m := by
    rw [hnodes]
    exact .refl _
  exact h.of_rewrites hroot hrewrites (fun _ hm => hm) fun _ _ hm => hm

/-! ## Attaching and removing -/

/-- Detaching another node keeps the root secure. -/
theorem unlink (h : tree.RootSecure) (hne : n ≠ tree.root) (hunlink : unlink tree n = .ok tree') :
    tree'.RootSecure := by
  obtain ⟨old, hold, hframe, hrewrites⟩ := unlink_ok hunlink
  have havoids := h.avoids n old hold
  exact h.of_rewrites (by rw [hframe]) hrewrites (fun _ hm => hm.detachStep havoids hne)
    fun _ _ hm => hm.detachStep havoids

/-- Detaching another node if it is attached keeps the root secure. -/
theorem unlinkIfAttached (h : tree.RootSecure) (hne : n ≠ tree.root)
    (hunlink : unlinkIfAttached tree n = .ok tree') :
    tree'.RootSecure ∧ tree'.root = tree.root := by
  obtain ⟨old, hold, hframe, -⟩ := unlinkIfAttached_ok hunlink
  refine ⟨?_, by rw [hframe]⟩
  unfold Sexp.unlinkIfAttached at hunlink
  rw [Slab.index_eq_ok.mpr hold, Library.ok_bind] at hunlink
  split at hunlink
  · exact h.unlink hne hunlink
  · cases hunlink
    exact h

/-- Attaching another node between others keeps the root secure. -/
theorem attached {previous next : Option NodeId} (h : tree.RootSecure)
    (hattached : tree.Attached tree' parent child previous next) (hchild : child ≠ tree.root)
    (hprevious : previous ≠ some tree.root) (hnext : next ≠ some tree.root) : tree'.RootSecure :=
  h.of_rewrites (by rw [hattached.frame]) hattached.rewrites
    (fun _ hm => hm.attachStep hchild hprevious hnext)
    fun _ _ hm => hm.attachStep hchild hprevious hnext

/-- `append` of another node keeps the root secure. -/
theorem append (h : tree.RootSecure) (hchild : child ≠ tree.root)
    (happend : append fuel tree parent child = .ok tree') : tree'.RootSecure := by
  obtain ⟨-, tree₁, p, hunlink, hp, hattached⟩ := append_ok happend
  obtain ⟨h₁, hroot⟩ := h.unlinkIfAttached hchild hunlink
  exact h₁.attached hattached (hroot ▸ hchild) (h₁.avoids parent p hp).last (by simp)

/-- `prepend` of another node keeps the root secure. -/
theorem prepend (h : tree.RootSecure) (hchild : child ≠ tree.root)
    (hprepend : prepend fuel tree parent child = .ok tree') : tree'.RootSecure := by
  obtain ⟨-, tree₁, p, hunlink, hp, hattached⟩ := prepend_ok hprepend
  obtain ⟨h₁, hroot⟩ := h.unlinkIfAttached hchild hunlink
  exact h₁.attached hattached (hroot ▸ hchild) (by simp) (h₁.avoids parent p hp).first

/-- **Removing another node keeps the root secure.** -/
theorem remove (h : tree.RootSecure) (hne : n ≠ tree.root)
    (hremove : remove fuel tree n = .ok tree') : tree'.RootSecure := by
  obtain ⟨tree₁, hunlink, hdrop⟩ := Library.bind_eq_ok.mp hremove
  obtain ⟨old, -, hframe, -⟩ := unlink_ok hunlink
  have hroot : tree₁.root = tree.root := by rw [hframe]
  -- every node on the stack has been reached by a link to a child or a sibling
  refine (dropSubtree_invariant (fun t => t.RootSecure ∧ t.root = tree.root) (· ≠ tree.root) ?_ ?_
    ⟨h.unlink hne hunlink, hroot⟩ hne hdrop).1
  · rintro t c ⟨ht, hteq⟩ hc
    obtain ⟨m, hm, hfree⟩ := ht.root_free
    refine ⟨⟨ht.slab.remove c, ⟨m, ?_, hfree⟩, fun id m' hm' => ?_⟩, hteq⟩
    · have hroot' : t.root ≠ c := fun heq => hc (heq ▸ hteq)
      rw [Slab.get_remove, if_neg hroot', hm]
    · rw [Slab.get_remove] at hm'
      split at hm'
      · cases hm'
      · exact ht.avoids id m' hm'
  · rintro t id m ⟨ht, hteq⟩ hm
    have havoids := ht.avoids id m hm
    rw [hteq] at havoids
    constructor
    · rintro q hq rfl
      exact havoids.last hq
    · rintro q hq rfl
      exact havoids.previous hq

/-! ## Allocating and cloning -/

/-- Allocating keeps the root secure, and does not give its key to the new node. -/
theorem allocated {kind : NodeType} (h : tree.RootSecure) (halloc : tree.Allocated tree' id kind)
    (hfits : tree'.nodes.slots.length ≤ 2 ^ 32) : tree'.RootSecure ∧ id ≠ tree.root := by
  obtain ⟨hfresh, hget⟩ := Slab.get_insert h.slab halloc.insert_eq hfits
  obtain ⟨m, hm, hfree⟩ := h.root_free
  have hne : id ≠ tree.root := by
    rintro rfl
    rw [hfresh] at hm
    cases hm
  have hroot : tree'.root = tree.root := by rw [halloc.frame]
  refine ⟨⟨halloc.slab h.slab, ⟨m, ?_, hfree⟩, fun id' m' hm' => ?_⟩, hne⟩
  · rw [hroot, hget, if_neg (Ne.symm hne), hm]
  · rw [hget] at hm'
    rw [hroot]
    split at hm'
    · cases hm'
      exact Node.avoids_unlinked kind tree.root
    · exact h.avoids id' m' hm'

end Tree.RootSecure

/-- **A tree grown from a single node has a secure root**, when there are keys for all slots. -/
theorem Tree.Grown.rootSecure (h : tree.Grown) (hfits : tree.nodes.slots.length ≤ 2 ^ 32) :
    tree.RootSecure := by
  induction h with
  | single kind =>
      exact .of_wellFormed (wellFormed_single kind) ((represents_single kind).parentOf_eq _)
  | append hgrown halloc happend ih =>
      rw [(append_relinked happend).slots_eq] at hfits
      have hlength := (Slab.length_insert halloc.insert_eq).1
      obtain ⟨h₁, hne⟩ := (ih (hlength.trans hfits)).allocated halloc hfits
      have hroot := halloc.frame
      refine h₁.append ?_ happend
      rw [hroot]
      exact hne

namespace Attachment

/-- The sibling that an operation names. -/
def sibling? : Attachment → Option NodeId
  | insertAfter after => after
  | _ => none

/-- **Attaching another node keeps the root secure**, when the sibling is not the root either. -/
theorem run_rootSecure {op : Attachment} (h : tree.RootSecure) (hchild : child ≠ tree.root)
    (hsibling : op.sibling? ≠ some tree.root)
    (hrun : op.run fuel tree parent child = .ok tree') : tree'.RootSecure := by
  match op with
  | append => exact h.append hchild hrun
  | prepend => exact h.prepend hchild hrun
  | insertAfter none =>
      obtain ⟨-, tree₁, hunlink, hprepend⟩ := insertAfter_none_ok hrun
      obtain ⟨h₁, hroot⟩ := h.unlinkIfAttached hchild hunlink
      exact h₁.prepend (hroot ▸ hchild) hprepend
  | insertAfter (some sibling) =>
      obtain ⟨-, tree₁, s, hunlink, hs, hattached⟩ := insertAfter_some_ok hrun
      obtain ⟨h₁, hroot⟩ := h.unlinkIfAttached hchild hunlink
      exact h₁.attached hattached (hroot ▸ hchild) (hroot ▸ hsibling) (h₁.avoids sibling s hs).next

end Attachment

end Sexp
