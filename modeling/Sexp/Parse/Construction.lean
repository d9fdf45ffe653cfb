import Sexp.Core.Allocation
import Sexp.Core.Attach
import Sexp.Core.Denotation
import Sexp.Core.Numbering
import Sexp.Parse.Parser

/-! # What the parser builds

Reading the tokens of a form makes the forest under construction grow by one tree, which denotes
that form, at the end of the innermost open list or beside the other top-level forms. The proof
follows the form: a new node is inserted and linked (`add_extends`), and the members of a list are
built one after the other below the node of the list (`run_tokens`). -/

namespace Sexp

open Library (OrderedForest Rose Form Grows Filled InOrder)

/-! ## Linking a new node -/

/-- What `linkChild` makes of the node `n` at `id`, when `previous` is the last child of `parent`.
It leaves links of `child` alone that are `none` in a node that has just been inserted. -/
def Node.linkStep (parent child : NodeId) (previous : Option NodeId) (id : NodeId)
    (n : Node) : Node where
  kind := n.kind
  parent := if id = child then some parent else n.parent
  firstChild := if previous = none ∧ id = parent then some child else n.firstChild
  lastChild := if id = parent then some child else n.lastChild
  previousSibling := if id = child then previous.or n.previousSibling else n.previousSibling
  nextSibling := if previous = some id then some child else n.nextSibling
  childCount := if id = parent then n.childCount + 1 else n.childCount

/-- What `linkBehind` does when it returns. -/
theorem linkBehind_ok {nodes nodes' : Slab Node} {parent child : NodeId} {previous : Option NodeId}
    (h : linkBehind nodes parent child previous = .ok nodes') :
    nodes.Rewrites nodes' fun id n =>
      { n with
        firstChild := if previous = none ∧ id = parent then some child else n.firstChild
        previousSibling := if id = child then previous.or n.previousSibling else n.previousSibling
        nextSibling := if previous = some id then some child else n.nextSibling } := by
  rcases previous with _ | previous
  · refine (Slab.Rewrites.of_modify h).congr fun id n => ?_
    by_cases hid : id = parent <;> simp [hid]
  · obtain ⟨s, hs, h⟩ := Library.bind_eq_ok.mp h
    refine ((Slab.Rewrites.of_modify hs).trans (.of_modify h)).congr fun id n => ?_
    by_cases hid : id = previous
    · subst hid
      by_cases hchild : id = child <;> simp [hchild]
    · have hne : previous ≠ id := Ne.symm hid
      by_cases hchild : id = child
      · subst hchild
        simp [hid, hne]
      · simp [hchild, hid, hne]

/-- What `linkChild` does when it returns. -/
theorem linkChild_ok {nodes nodes' : Slab Node} {parent child : NodeId}
    (h : linkChild nodes parent child = .ok nodes') :
    ∃ p, nodes.get parent = some p ∧
      nodes.Rewrites nodes' (Node.linkStep parent child p.lastChild) := by
  rw [linkChild] at h
  obtain ⟨s₁, h₁, h⟩ := Library.bind_eq_ok.mp h
  obtain ⟨p₁, hp₁, h⟩ := Library.bind_eq_ok.mp h
  obtain ⟨s₂, h₂, h⟩ := Library.bind_eq_ok.mp h
  obtain ⟨s₃, h₃, h₄⟩ := Library.bind_eq_ok.mp h
  have hget := Slab.index_eq_ok.mp hp₁
  rw [(Slab.Rewrites.of_modify h₁).get_eq, Option.map_eq_some_iff] at hget
  obtain ⟨p, hp, rfl⟩ := hget
  -- the parent is read after the first write, which keeps its last child
  have hlast : (if parent = child then { p with parent := some parent } else p).lastChild =
      p.lastChild := by split <;> rfl
  rw [hlast] at h₂
  refine ⟨p, hp, ?_⟩
  refine ((((Slab.Rewrites.of_modify h₁).trans (linkBehind_ok h₂)).trans (.of_modify h₃)).trans
    (.of_modify h₄)).congr fun id n => ?_
  -- the writes are collected by the node they go to; the two nodes may be the same
  by_cases hchild : id = child
  · subst hchild
    by_cases hparent : id = parent
    · subst hparent
      simp [Node.linkStep]
    · simp [Node.linkStep, hparent]
  · by_cases hparent : id = parent
    · subst hparent
      simp [Node.linkStep, hchild]
    · simp [Node.linkStep, hchild, hparent]

/-- Writing the links behind the last child, when it, the parent and the child are live. -/
theorem linkBehind_admits {nodes : Slab Node} {parent child : NodeId} {previous : Option NodeId}
    (hparent : (nodes.get parent).isSome) (hchild : (nodes.get child).isSome)
    (hprevious : ∀ q, previous = some q → (nodes.get q).isSome) :
    nodes.Admits fun s => linkBehind s parent child previous := by
  rcases previous with _ | q
  · exact .modify hparent _
  · exact (Slab.Admits.modify (hprevious q rfl) _).seq (.modify hchild _)

/-- `linkChild` returns when both nodes and the last child of the parent are live. -/
theorem linkChild_total {nodes : Slab Node} {parent child : NodeId} {p : Node}
    (hp : nodes.get parent = some p) (hchild : (nodes.get child).isSome)
    (hlast : ∀ q, p.lastChild = some q → (nodes.get q).isSome) :
    ∃ nodes', linkChild nodes parent child = .ok nodes' := by
  have hparent : (nodes.get parent).isSome := by simp [hp]
  -- the parent is read after the first write, which keeps its last child
  have hget : (nodes.update child fun n => { n with parent := some parent }).get parent =
      some (if parent = child then { p with parent := some parent } else p) := by
    rw [Slab.get_update, hp]
    rfl
  have hlast' : (if parent = child then { p with parent := some parent } else p).lastChild =
      p.lastChild := by split <;> rfl
  have hs₁ : nodes.SameLive (nodes.update child fun n => { n with parent := some parent }) :=
    fun id => Slab.isSome_get_update nodes child _ id
  rw [linkChild, Slab.modify_of_live hchild, Library.ok_bind, Slab.index_eq_ok.mpr hget,
    Library.ok_bind, hlast']
  refine (linkBehind_admits hparent hchild hlast).bind hs₁ fun s₂ hs₂ => ?_
  refine (Slab.Admits.modify hparent _).bind hs₂ fun s₃ hs₃ => ?_
  obtain ⟨s₄, hmodify, -⟩ := Slab.Admits.modify hparent _ s₃ hs₃
  exact ⟨s₄, hmodify⟩

/-- On the nodes of a forest, linking a parentless node behind the last child of another is
attaching it there. -/
theorem linkStep_nodeOf {F : OrderedForest NodeId NodeType} {parent child : NodeId}
    (hfree : F.parent child = none) (previous : Option NodeId) (id : NodeId) (kind : NodeType) :
    Node.linkStep parent child previous id (nodeOf F id kind) =
      Node.attachStep parent child previous none id (nodeOf F id kind) := by
  by_cases hid : id = child
  · subst hid
    rcases previous with _ | q <;> simp [Node.linkStep, Node.attachStep, nodeOf, hfree]
  · simp [Node.linkStep, Node.attachStep, hid]

/-- **`link_child` refines placing** a parentless node at the end of a child list. -/
theorem linkChild_represents {F : OrderedForest NodeId NodeType} {nodes : Slab Node}
    {parent child : NodeId} (h : (Tree.fromRaw nodes ⟨0⟩).Represents F)
    (hparent : (F.label parent).isSome) (hchild : (F.label child).isSome)
    (hfree : F.parent child = none) (hbelow : parent ∉ F.subtree child)
    (hgap : F.children parent = F.children parent ++ []) :
    ∃ nodes' g, linkChild nodes parent child = .ok nodes' ∧ nodes.Rewrites nodes' g ∧
      (Tree.fromRaw nodes' ⟨0⟩).Represents
        (F.place parent child (F.children parent) [] hparent hchild hfree hbelow hgap) := by
  obtain ⟨kind, hkind⟩ := Option.isSome_iff_exists.mp hparent
  have hget : nodes.get parent = some (nodeOf F parent kind) := h.get_of_label hkind
  obtain ⟨nodes', hlink⟩ := linkChild_total hget (h.live_iff.mpr hchild) fun q hq =>
    h.links_live hget (by simp [Node.links, hq])
  obtain ⟨p, hp, hrewrites⟩ := linkChild_ok hlink
  obtain rfl : nodeOf F parent kind = p := by simpa [hget] using hp
  -- node by node: what the writes make of it is what the new forest stores
  refine ⟨nodes', _, hlink, hrewrites, fun id => ?_⟩
  have hid : nodes.get id = (F.label id).map (nodeOf F id) := h id
  change nodes'.get id = _
  rw [hrewrites.get_eq, hid, Option.map_map]
  refine congrFun (congrArg Option.map (funext fun kind' => ?_)) _
  rw [Function.comp_apply, linkStep_nodeOf hfree]
  exact Tree.Represents.attachStep_nodeOf hparent hchild hfree hbelow hgap kind' id

/-! ## The state of the parser -/

namespace Building

/-- The tree of the nodes built so far; its root does not matter. -/
def tree (building : Building) : Tree := Tree.fromRaw building.nodes ⟨0⟩

/-- **What holds between two tokens**: the nodes store a forest in which atoms are leaves, no slot
is free, and the open lists are lists. -/
structure Sound (building : Building) (F : OrderedForest NodeId NodeType) : Prop where
  /-- The nodes store the forest. -/
  represents : building.tree.Represents F
  /-- The slab is consistent. -/
  slab : building.nodes.WellFormed
  /-- No slot is free. -/
  free_eq : building.nodes.free = []
  /-- The open lists are lists. -/
  open_list : ∀ p ∈ building.openLists, F.label p = some .list
  /-- Atoms are leaves. -/
  leaf : ∀ id value, F.label id = some (.atom value) → F.children id = []

/-- **What reading forms does**: the forest grows by trees that denote them, at the end of the
innermost open list or beside the other top-level forms. -/
structure Extends (building building' : Building) (F G : OrderedForest NodeId NodeType)
    (rs : List (Rose NodeId)) (forms : List (Form String)) : Prop where
  /-- The new state is sound. -/
  sound : building'.Sound G
  /-- The forest grows by the trees. -/
  grows : Grows F G building.openLists.head? rs
  /-- The trees denote the forms. -/
  forms_eq : rs.map (formOf G.label) = forms
  /-- The open lists are the same. -/
  openLists_eq : building'.openLists = building.openLists
  /-- Outside of lists, the trees are recorded as top-level forms. -/
  topLevel_eq : building'.topLevel =
    building.topLevel ++ if building.openLists = [] then rs.map Rose.root else []
  /-- One slot is taken by every node. -/
  length_eq : building'.nodes.slots.length = building.nodes.slots.length + Form.sizeAll forms

variable {building building' building'' : Building} {F G H : OrderedForest NodeId NodeType}
  {rs ss : List (Rose NodeId)} {forms forms' : List (Form String)}

/-- Before the first token nothing is built. -/
theorem sound_new : new.Sound OrderedForest.empty where
  represents _ := rfl
  slab := Slab.wellFormed_new
  free_eq := rfl
  open_list := by simp [new]
  leaf := by simp [OrderedForest.empty]

/-- The innermost open list is live. -/
theorem Sound.live_head (h : building.Sound F) (p : NodeId)
    (hp : building.openLists.head? = some p) : (F.label p).isSome := by
  rw [h.open_list p (List.mem_of_mem_head? hp)]
  rfl

/-- The live nodes are those of the slots. -/
theorem Sound.filled (h : building.Sound F) : Filled F Key.slot building.nodes.slots.length :=
  h.represents.filled h.slab h.free_eq

/-- Reading nothing. -/
theorem Extends.nil (h : building.Sound F) : building.Extends building F F [] [] where
  sound := h
  grows := .nil h.live_head
  forms_eq := rfl
  openLists_eq := rfl
  topLevel_eq := by simp
  length_eq := by simp

/-- Trees that have been built keep denoting their forms. -/
theorem map_formOf_grows {at? : Option NodeId} (h : Grows G H at? ss)
    (hlive : ∀ m ∈ Rose.idsAll rs, (G.label m).isSome) :
    rs.map (formOf H.label) = rs.map (formOf G.label) := by
  refine List.map_congr_left fun r hr => formOf_congr r fun x hx => ?_
  exact h.label_eq x (h.notMem_of_live (hlive x (Rose.mem_idsAll.mpr ⟨r, hr, hx⟩)))

/-- Reading forms one after the other. -/
theorem Extends.append (h : building.Extends building' F G rs forms)
    (h' : building'.Extends building'' G H ss forms') :
    building.Extends building'' F H (rs ++ ss) (forms ++ forms') where
  sound := h'.sound
  grows := h.grows.append (h.openLists_eq ▸ h'.grows)
  forms_eq := by
    rw [List.map_append, map_formOf_grows h'.grows h.grows.live_new, h.forms_eq, h'.forms_eq]
  openLists_eq := h'.openLists_eq.trans h.openLists_eq
  topLevel_eq := by
    rw [h'.topLevel_eq, h.topLevel_eq, h.openLists_eq, List.append_assoc]
    split <;> simp
  length_eq := by
    rw [h'.length_eq, h.length_eq, Form.sizeAll_append, Nat.add_assoc]

/-! ## One node -/

/-- The form of a node without children. -/
def leafForm : NodeType → Form String
  | .atom value => .atom value.asStr
  | .list => .list []

/-- The form of a rose tree with one node. -/
theorem formOf_leaf {label : NodeId → Option NodeType} {id : NodeId} {kind : NodeType}
    (h : label id = some kind) : formOf label (.node id []) = leafForm kind := by
  rcases kind with value | _
  · exact formOf_atom h []
  · exact formOf_list h []

/-- A state of the parser with these nodes is sound, when they store the old forest and one new
node without children. -/
theorem Sound.of_single (h : building.Sound F) {id : NodeId} {kind : NodeType}
    {nodes : Slab Node} {topLevel : List NodeId}
    (hgrows : Grows F G building.openLists.head? [.node id []]) (hlabel : G.label id = some kind)
    (hrep : (Tree.fromRaw nodes ⟨0⟩).Represents G) (hslab : nodes.WellFormed)
    (hfree : nodes.free = []) : (⟨nodes, building.openLists, topLevel⟩ : Building).Sound G where
  represents := hrep
  slab := hslab
  free_eq := hfree
  open_list p hp := by
    rw [hgrows.label_eq p (hgrows.notMem_of_live (by rw [h.open_list p hp]; rfl))]
    exact h.open_list p hp
  -- an atom that was there before is not the list the new node is put in
  leaf m value hm := by
    by_cases hmid : m = id
    · subst hmid
      exact (hgrows.spans _ List.mem_cons_self).children_root
    · have hmem : m ∉ Rose.idsAll [.node id []] := by simpa using hmid
      have hold : F.label m = some (.atom value) := (hgrows.label_eq m hmem).symm.trans hm
      rw [hgrows.children_eq m hmem ?_, h.leaf m value hold]
      intro heq
      simpa [hold] using h.open_list m (List.mem_of_mem_head? heq)

/-- **One new node.** The parser inserts it and links it at its place. -/
theorem add_extends (h : building.Sound F) (kind : NodeType)
    (hfits : building.nodes.slots.length + 1 ≤ 2 ^ 32) :
    ∃ building' id G, building.add (Node.unlinked kind) = .ok (building', id) ∧
      building.Extends building' F G [.node id []] [leafForm kind] ∧ G.label id = some kind := by
  obtain ⟨nodes, id, hinsert, hslab⟩ := h.slab.insert (Node.unlinked kind)
  obtain ⟨hfree', hlength⟩ := Slab.insert_of_free_eq_nil h.free_eq hinsert
  obtain ⟨hdead, h₁⟩ := h.represents.insert h.slab hinsert (by omega)
  rw [add, hinsert, Library.ok_bind]
  have hlabel₁ : (F.setLabel id kind).label id = some kind := if_pos rfl
  rcases hopen : building.openLists with _ | ⟨p, ps⟩
  · -- a top-level form
    have hgrows : Grows F (F.setLabel id kind) building.openLists.head? [.node id []] := by
      rw [hopen]
      exact .setLabel hdead kind
    have hsound : (⟨nodes, building.openLists, building.topLevel ++ [id]⟩ : Building).Sound _ :=
      h.of_single hgrows hlabel₁ h₁ hslab hfree'
    refine ⟨_, id, F.setLabel id kind, rfl, ⟨?_, hgrows, ?_, hopen.symm, ?_, ?_⟩, hlabel₁⟩
    · rwa [hopen] at hsound
    · rw [List.map_singleton, formOf_leaf hlabel₁]
    · simp [hopen]
    · simp only [hlength, Form.sizeAll_cons, Form.sizeAll_nil]
      rcases kind <;> simp [leafForm]
  · -- a member of the innermost open list
    have hlist : F.label p = some .list := h.open_list p (by simp [hopen])
    have hlive : (F.label p).isSome := by rw [hlist]; rfl
    have hpid : p ≠ id := by
      rintro rfl
      simp [hdead] at hlive
    have hp₁ : ((F.setLabel id kind).label p).isSome := by
      rw [show (F.setLabel id kind).label p = F.label p from if_neg hpid]
      exact hlive
    have hid₁ : ((F.setLabel id kind).label id).isSome := by rw [hlabel₁]; rfl
    have hfree : F.parent id = none := OrderedForest.parent_eq_none_of_dead hdead
    have hnochild : F.children id = [] := OrderedForest.children_eq_nil_of_dead hdead
    have hbelow : p ∉ (F.setLabel id kind).subtree id := fun hmem =>
      hpid (OrderedForest.eq_of_mem_subtree_leaf hnochild hmem)
    obtain ⟨nodes', g, hlink, hrewrites, hrep⟩ := linkChild_represents h₁ hp₁ hid₁ hfree hbelow
      (List.append_nil _).symm
    have hgrows : Grows F ((F.setLabel id kind).place p id (F.children p) [] hp₁ hid₁ hfree hbelow
        (List.append_nil _).symm) (some p) [.node id []] := .place hlive hdead
    have hlabel : ((F.setLabel id kind).place p id (F.children p) [] hp₁ hid₁ hfree hbelow
        (List.append_nil _).symm).label id = some kind := hlabel₁
    change (Tree.fromRaw nodes' ⟨0⟩).Represents ((F.setLabel id kind).place p id (F.children p) []
      hp₁ hid₁ hfree hbelow (List.append_nil _).symm) at hrep
    -- what follows does not depend on how the forest is made
    generalize (F.setLabel id kind).place p id (F.children p) [] hp₁ hid₁ hfree hbelow
      (List.append_nil _).symm = G at hrep hgrows hlabel
    have hhead : building.openLists.head? = some p := by rw [hopen]; rfl
    have hsound : (⟨nodes', building.openLists, building.topLevel⟩ : Building).Sound G :=
      h.of_single (hhead ▸ hgrows) hlabel hrep (hrewrites.wellFormed hslab)
        (hrewrites.free_eq.trans hfree')
    refine ⟨⟨nodes', building.openLists, building.topLevel⟩, id, G, ?_,
      ⟨hsound, hhead ▸ hgrows, ?_, rfl, ?_, ?_⟩, hlabel⟩
    · simp only [hlink, Library.ok_bind, hopen]
      rfl
    · rw [List.map_singleton, formOf_leaf hlabel]
    · simp [hopen]
    · simp only [hrewrites.length_eq, hlength, Form.sizeAll_cons, Form.sizeAll_nil]
      rcases kind <;> simp [leafForm]

/-! ## Reading tokens -/

/-- What the parser makes of a token sequence. -/
def run (building : Building) : List Token → Exec (Except ParseError Building)
  | [] => return .ok building
  | token :: tokens => do
      match ← building.token token with
      | .error error => return .error error
      | .ok building => building.run tokens

/-- Reading a token that the parser accepts. -/
theorem run_cons {t : Token} (h : building.token t = .ok (.ok building')) (ts : List Token) :
    building.run (t :: ts) = building'.run ts := by
  rw [run, h]
  rfl

/-- **Opening a list**: its node is added and becomes the innermost open list. -/
theorem token_leftParen (h : building.Sound F)
    (hfits : building.nodes.slots.length + 1 ≤ 2 ^ 32) :
    ∃ b₁ id G, building.token .leftParen = .ok (.ok { b₁ with openLists := id :: b₁.openLists }) ∧
      building.Extends b₁ F G [.node id []] [.list []] ∧ G.label id = some .list ∧
      ({ b₁ with openLists := id :: b₁.openLists } : Building).Sound G := by
  obtain ⟨b₁, id, G, hadd, hextends, hlabel⟩ := add_extends h .list hfits
  refine ⟨b₁, id, G, ?_, hextends, hlabel, ?_⟩
  · rw [token, Node.newList, hadd]
    rfl
  · exact
      { represents := hextends.sound.represents
        slab := hextends.sound.slab
        free_eq := hextends.sound.free_eq
        open_list := List.forall_mem_cons.mpr ⟨hlabel, hextends.sound.open_list⟩
        leaf := hextends.sound.leaf }

/-- Reading a list: its node is added, its members are built below that node, and the list is
closed. -/
theorem extends_list {id : NodeId} (h : building.Extends building' F G [.node id []] [.list []])
    (hlabel : G.label id = some .list)
    (hmembers : ({ building' with openLists := id :: building'.openLists } : Building).Extends
      building'' G H ss forms) :
    building.Extends { building'' with openLists := building.openLists } F H [.node id ss]
      [.list forms] where
  sound :=
    { represents := hmembers.sound.represents
      slab := hmembers.sound.slab
      free_eq := hmembers.sound.free_eq
      open_list := fun p hp => hmembers.sound.open_list p (by
        rw [hmembers.openLists_eq, h.openLists_eq]
        exact List.mem_cons_of_mem id hp)
      leaf := hmembers.sound.leaf }
  grows := h.grows.node hmembers.grows
  forms_eq := by
    -- the members are new nodes, so the list keeps its content
    have hlabel' : H.label id = some .list := by
      rw [hmembers.grows.label_eq id (hmembers.grows.at_notMem rfl), hlabel]
    rw [List.map_singleton, formOf_list hlabel', hmembers.forms_eq]
  openLists_eq := rfl
  topLevel_eq := by
    have := hmembers.topLevel_eq
    simp only [reduceCtorEq, if_false, List.append_nil, h.topLevel_eq, List.map_singleton,
      Rose.root_node] at this
    simpa using this
  length_eq := by
    have := hmembers.length_eq
    simp only [h.length_eq, Form.sizeAll_cons, Form.size_list, Form.sizeAll_nil] at this
    simp only [this, Form.sizeAll_cons, Form.size_list, Form.sizeAll_nil]
    omega

mutual

/-- **Reading a form** makes the forest grow by a tree that denotes it, whose nodes take their slots
in pre-order. -/
theorem run_tokens (form : Form String) (building : Building)
    (F : OrderedForest NodeId NodeType) (h : building.Sound F)
    (hfits : building.nodes.slots.length + form.size ≤ 2 ^ 32) :
    ∃ building' G r, (∀ ts, building.run (form.tokens ++ ts) = building'.run ts) ∧
      building.Extends building' F G [r] [form] ∧ InOrder Key.slot (Rose.idsAll [r]) := by
  match form with
  | .atom value =>
      obtain ⟨building', id, G, hadd, hextends, -⟩ :=
        add_extends h (.atom (Atom.new value)) (by simpa using hfits)
      refine ⟨building', G, _, fun ts => ?_, by simpa [leafForm] using hextends, by simp⟩
      rw [Form.tokens_atom, List.singleton_append, run_cons]
      rw [token, Node.newAtom, hadd]
      rfl
  | .list forms =>
      rw [Form.size_list] at hfits
      obtain ⟨b₁, id, G, hopen, hextends, hlabel, hsound⟩ := token_leftParen h (by omega)
      have hlength := hextends.length_eq
      simp only [Form.sizeAll_cons, Form.size_list, Form.sizeAll_nil] at hlength
      obtain ⟨b₂, H, ss, hrun, hmembers, horder⟩ := run_tokensAll forms _ G hsound (by
        change b₁.nodes.slots.length + _ ≤ _
        omega)
      refine ⟨_, H, _, fun ts => ?_, extends_list hextends hlabel hmembers,
        hextends.grows.inOrder_node hmembers.grows hextends.sound.filled horder⟩
      -- the members leave the open lists as they were, so their own list is closed
      have hclose : b₂.token .rightParen =
          .ok (.ok { b₂ with openLists := building.openLists }) := by
        rw [token, hmembers.openLists_eq, hextends.openLists_eq]
        rfl
      rw [Form.tokens_list, List.cons_append, List.append_assoc, run_cons hopen, hrun,
        List.singleton_append, run_cons hclose]

/-- **Reading forms** makes the forest grow by trees that denote them, whose nodes take their slots
in pre-order. -/
theorem run_tokensAll (forms : List (Form String)) (building : Building)
    (F : OrderedForest NodeId NodeType) (h : building.Sound F)
    (hfits : building.nodes.slots.length + Form.sizeAll forms ≤ 2 ^ 32) :
    ∃ building' G rs, (∀ ts, building.run (Form.tokensAll forms ++ ts) = building'.run ts) ∧
      building.Extends building' F G rs forms ∧ InOrder Key.slot (Rose.idsAll rs) := by
  match forms with
  | [] => exact ⟨building, F, [], fun ts => by simp, .nil h, by simp⟩
  | form :: forms =>
      rw [Form.sizeAll_cons] at hfits
      obtain ⟨b₁, G, r, hrun, h₁, horder⟩ := run_tokens form building F h (by omega)
      have hlength := h₁.length_eq
      simp only [Form.sizeAll_cons, Form.sizeAll_nil] at hlength
      obtain ⟨b₂, H, rs, hrun', h₂, horder'⟩ := run_tokensAll forms b₁ G h₁.sound (by omega)
      have hgrows := h₁.openLists_eq ▸ h₂.grows
      refine ⟨b₂, H, [r] ++ rs, fun ts => ?_, by simpa using h₁.append h₂,
        h₁.grows.inOrder_append hgrows h₁.sound.filled horder horder'⟩
      rw [Form.tokensAll_cons, List.append_assoc, hrun, hrun']

end

end Building

end Sexp
