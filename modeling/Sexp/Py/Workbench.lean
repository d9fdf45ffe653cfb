import Sexp.Core.Moving
import Sexp.Library.Planting
import Sexp.Py.Versions
import Sexp.Py.Views

/-! # Building trees by calls

Nodes are allocated detached and put below each other by `append`, and every `append` makes stale
all handles of the tree but those to its root and the one that it is called on. A form can be built
nevertheless: first the members of a list and then the list, which is still fresh when the members
are appended to it, since a child may be stale (`buildCalls`). Every list is the root of a tree that
is built in this way (`list_buildable`). -/

namespace Sexp

open Library (Answers Form OrderedForest Plants Rose Run)

variable {w w' w₁ : World} {c : Call} {v : Value} {self child : HandleRef} {h x : Handle}
  {tree tree' : Tree} {calls calls' : List Call}

/-! ## Calls that return -/

/-- **The calls return**, one after the other, and lead from `w` to `w'`; all of them are calm. -/
def World.Does (w : World) (calls : List Call) (w' : World) : Prop :=
  ∃ events : List ApiEvent, Run ApiStep w events w' ∧
    events.reverse.map (fun e => e.label.call) = calls ∧
    ∀ e ∈ events, e.Calm ∧ ∃ v, e.label.result = .ok v

namespace World.Does

/-- No calls. -/
theorem nil : w.Does [] w := ⟨[], .nil, rfl, fun e he => by cases he⟩

/-- One call. -/
theorem single (hstep : ApiStep w ⟨c, .ok v⟩ w') (hcalm : ApiEvent.Calm ⟨w, ⟨c, .ok v⟩, w'⟩) :
    w.Does [c] w' := by
  refine ⟨[⟨w, ⟨c, .ok v⟩, w'⟩], Run.nil.cons hstep, rfl, fun e he => ?_⟩
  obtain rfl := List.mem_singleton.mp he
  exact ⟨hcalm, v, rfl⟩

/-- More calls. -/
theorem trans (h : w.Does calls w₁) (h' : w₁.Does calls' w') : w.Does (calls ++ calls') w' := by
  obtain ⟨events, hrun, hcalls, hall⟩ := h
  obtain ⟨events', hrun', hcalls', hall'⟩ := h'
  refine ⟨events' ++ events, hrun.trans hrun', ?_, fun e he => ?_⟩
  · rw [List.reverse_append, List.map_append, hcalls, hcalls']
  · rcases List.mem_append.mp he with he | he
    · exact hall' e he
    · exact hall e he

end World.Does

/-- **The handles keep their nodes.** -/
def World.Keeps (w w' : World) : Prop :=
  ∀ (ref : HandleRef) (h : Handle), w.handles[ref]? = some h →
    ∃ h' : Handle, w'.handles[ref]? = some h' ∧ h'.tree = h.tree ∧ h'.node = h.node

namespace World.Keeps

/-- Without a call they do. -/
theorem refl (w : World) : w.Keeps w := fun _ h hh => ⟨h, hh, rfl, rfl⟩

/-- More calls. -/
theorem trans (hkeeps : w.Keeps w₁) (hkeeps' : w₁.Keeps w') : w.Keeps w' := by
  intro ref h hh
  obtain ⟨h₁, hh₁, htree₁, hnode₁⟩ := hkeeps ref h hh
  obtain ⟨h', hh', htree', hnode'⟩ := hkeeps' ref h₁ hh₁
  exact ⟨h', hh', htree'.trans htree₁, hnode'.trans hnode₁⟩

/-- Every call that returns keeps them. -/
theorem of_effect {fuel : ℕ} (he : Effect fuel w c v w') : w.Keeps w' := by
  intro ref h hh
  obtain ⟨h', hh', htree, hnode, -⟩ := he.handle_step hh
  exact ⟨h', hh', htree, hnode⟩

end World.Keeps

/-- The handles name these nodes of a tree. -/
def World.Names (w : World) (t : ℕ) : List HandleRef → List NodeId → Prop :=
  List.Forall₂ fun ref n => ∃ h : Handle, w.handles[ref]? = some h ∧ h.tree = t ∧ h.node = n

/-- What the handles name they name later. -/
theorem World.Names.mono {t : ℕ} {refs : List HandleRef} {nodes : List NodeId}
    (hnames : w.Names t refs nodes) (hkeeps : w.Keeps w') : w'.Names t refs nodes := by
  refine List.Forall₂.imp (fun ref n hn => ?_) hnames
  obtain ⟨h, hh, htree, hnode⟩ := hn
  obtain ⟨h', hh', htree', hnode'⟩ := hkeeps ref h hh
  exact ⟨h', hh', htree'.trans htree, hnode'.trans hnode⟩

/-! ## The workbench -/

/-- **A tree to build in**, with a handle `root` to its root. -/
structure Workbench (root : HandleRef) (t : ℕ) where
  /-- The objects. -/
  world : World
  /-- The tree. -/
  tree : Tree
  /-- The forest that it represents. -/
  forest : OrderedForest NodeId NodeType
  /-- The handle. -/
  handle : Handle
  /-- The world is sound. -/
  sound : world.Sound
  /-- The trees are small. -/
  small : world.Small
  /-- The tree is the one of the handle. -/
  receives : world.Receives root handle tree
  /-- It is the tree `t`. -/
  handle_tree : handle.tree = t
  /-- The handle names its root. -/
  handle_node : handle.node = tree.root
  /-- The tree represents the forest. -/
  represents : tree.Represents forest

variable {root : HandleRef} {t : ℕ} {s s₁ s' : Workbench root t}

namespace Workbench

/-- The tree of the workbench. -/
theorem tree_eq (s : Workbench root t) : s.world.trees[t]? = some s.tree := by
  have ht := s.receives.tree_eq
  rwa [s.handle_tree] at ht

/-- The tree is well-formed. -/
theorem wellFormed (s : Workbench root t) : s.tree.WellFormed :=
  s.sound.wellFormed s.tree (List.mem_of_getElem? s.tree_eq)

/-- A handle at the version of the tree can be used. -/
theorem receives_of_version (s : Workbench root t) (hh : s.world.handles[self]? = some h)
    (ht : h.tree = t) (hversion : h.version = s.tree.version) :
    s.world.Receives self h s.tree := by
  refine ⟨hh, ht.symm ▸ s.tree_eq, ?_⟩
  simp [Handle.isStale, hversion]

/-- **The calls lead on**: they return, keep the handles, allocate `nodes` nodes with as many
handles, and bump the version `bumps` times. -/
structure Leads (s : Workbench root t) (calls : List Call) (nodes bumps : ℕ)
    (s' : Workbench root t) : Prop where
  /-- The calls return. -/
  does : s.world.Does calls s'.world
  /-- The handles keep their nodes. -/
  keeps : s.world.Keeps s'.world
  /-- The other trees stay. -/
  trees : s'.world.trees = s.world.trees.set t s'.tree
  /-- The root stays. -/
  root_eq : s'.tree.root = s.tree.root
  /-- The new handles. -/
  handles : s'.world.handles.length = s.world.handles.length + nodes
  /-- The new slots. -/
  slots : s'.tree.nodes.slots.length ≤ s.tree.nodes.slots.length + nodes
  /-- The version. -/
  version : s'.tree.version.toNat = s.tree.version.toNat + bumps

namespace Leads

variable {n n' b b' : ℕ}

/-- No calls. -/
theorem nil : s.Leads [] 0 0 s := by
  obtain ⟨hlt, htree⟩ := List.getElem?_eq_some_iff.mp s.tree_eq
  exact ⟨.nil, .refl _, by rw [← htree, List.set_getElem_self], rfl, rfl, le_rfl, rfl⟩

/-- More calls. -/
theorem trans (h : s.Leads calls n b s₁) (h' : s₁.Leads calls' n' b' s') :
    s.Leads (calls ++ calls') (n + n') (b + b') s' := by
  obtain ⟨hdoes, hkeeps, htrees, hroot, hhandles, hslots, hversion⟩ := h
  obtain ⟨hdoes', hkeeps', htrees', hroot', hhandles', hslots', hversion'⟩ := h'
  refine ⟨hdoes.trans hdoes', hkeeps.trans hkeeps', ?_, hroot'.trans hroot, by omega, by omega,
    by omega⟩
  rw [htrees', htrees, List.set_set]

end Leads

/-- **One call leads on**, when it writes the tree, and neither removes the root nor overflows. -/
theorem exists_step (s : Workbench root t) {G : OrderedForest NodeId NodeType} {nodes bumps : ℕ}
    (hanswers : Answers (fun fuel => call fuel c s.world) (.ok v, w'))
    (hattaches : c.AttachesSane s.world) (hremoves : c.removes = false)
    (hoverflow : c.NoOverflow s.world) (htrees : w'.trees = s.world.trees.set t tree')
    (hfits : tree'.nodes.slots.length ≤ 2 ^ 32) (hroot : tree'.root = s.tree.root)
    (hG : tree'.Represents G) (hhandles : w'.handles.length = s.world.handles.length + nodes)
    (hslots : tree'.nodes.slots.length ≤ s.tree.nodes.slots.length + nodes)
    (hversion : tree'.version.toNat = s.tree.version.toNat + bumps) :
    ∃ s' : Workbench root t, s'.world = w' ∧ s'.tree = tree' ∧ s'.forest = G ∧
      s.Leads [c] nodes bumps s' := by
  obtain ⟨fuel, hfuel⟩ := hanswers.exists_fuel
  have he := call_effect hfuel
  have hkeeps := World.Keeps.of_effect he
  have hsmall : w'.Small := by
    intro other hother
    rw [htrees] at hother
    rcases List.mem_or_eq_of_mem_set hother with hold | rfl
    · exact s.small other hold
    · exact hfits
  have hcalm : ApiEvent.Calm ⟨s.world, ⟨c, .ok v⟩, w'⟩ := by
    refine ⟨hattaches, fun _ _ _ _ _ hremoved => ?_, hoverflow, hsmall⟩
    rw [hremoves] at hremoved
    cases hremoved
  have ht : w'.trees[t]? = some tree' := by
    rw [htrees, List.getElem?_set_self (List.getElem?_eq_some_iff.mp s.tree_eq).1]
  -- the handle to the root is never stale
  obtain ⟨h, hh, htree, hnode⟩ := hkeeps root s.handle s.receives.handle_eq
  rw [s.handle_tree] at htree
  rw [s.handle_node, ← hroot] at hnode
  have hfresh : h.isStale tree' = false := by simp [Handle.isStale, hnode]
  have hsound : w'.Sound := hcalm.sound s.sound he
  exact ⟨⟨w', tree', G, h, hsound, hsmall, ⟨hh, htree.symm ▸ ht, hfresh⟩, htree, hnode, hG⟩,
    rfl, rfl, rfl, .single ⟨fuel, hfuel⟩ hcalm, hkeeps, htrees, hroot, hhandles, hslots, hversion⟩

end Workbench

/-! ## One call -/

/-- A call that allocates a node attaches none. -/
theorem Call.attachesSane_of_allocates {kind : NodeType} (hkind : c.allocates = some kind) :
    c.AttachesSane w := by
  refine Call.attachesOnly_of_none fun h tree op child hop => ?_
  cases hop <;> cases hkind

/-- A call that allocates a node removes none. -/
theorem Call.removes_of_allocates {kind : NodeType} (hkind : c.allocates = some kind) :
    c.removes = false :=
  Call.removes_of_bumps (Call.bumps_of_allocates hkind)

/-- **Allocating a node** returns a handle to it. -/
theorem alloc_answers {kind : NodeType} (hrec : w.Receives self h tree)
    (hslab : tree.nodes.WellFormed) (hc : c.self? = some self)
    (hkind : c.allocates = some kind) :
    ∃ tree' id, tree.Allocated tree' id kind ∧
      Answers (fun fuel => call fuel c w) (.ok (.sexp w.handles.length),
        (w.refreshed self h tree').extend [⟨h.tree, id, tree'.version⟩] []) := by
  cases c with
  | newAtom _ text =>
      cases hc
      cases hkind
      obtain ⟨tree', id, hok⟩ := allocAtom_total hslab (Atom.new text)
      exact ⟨tree', id, allocAtom_ok hok,
        PyM.map_answers (.const fun _ => SExp.alloc_apply hrec hok) Value.sexp⟩
  | newList _ =>
      cases hc
      cases hkind
      obtain ⟨tree', id, hok⟩ := allocList_total hslab
      exact ⟨tree', id, allocList_ok hok,
        PyM.map_answers (.const fun _ => SExp.alloc_apply hrec hok) Value.sexp⟩
  | _ => cases hkind

/-- **Appending a node** of the same tree. -/
theorem append_answers (hrec : w.Receives self h tree) (hx : w.handles[child]? = some x)
    (hsame : h.tree = x.tree)
    (hrun : Answers (fun fuel => append fuel tree h.node x.node) tree') :
    Answers (fun fuel => call fuel (.append self child) w)
      (.ok .none, w.refreshed self h tree') := by
  have hmethod : Answers (fun fuel => SExp.append fuel self child w)
      (.ok (), w.refreshed self h tree') := by
    have happly : ∀ fuel, SExp.append fuel self child w = SExp.withTreeMut self
        (fun tree node => do
          return ((.ok () : Except PyErr Unit), ← append fuel tree node x.node)) w :=
      fun fuel => SExp.sameTree_apply hrec.handle_eq hx hsame _
    simp only [happly]
    exact SExp.withTreeMut_answers hrec (.bind hrun (.const fun _ => rfl))
  exact PyM.map_answers hmethod fun _ => Value.none

namespace Workbench

/-- **Allocating a node on the workbench.** -/
theorem exists_alloc (s : Workbench root t) {kind : NodeType} (hc : c.self? = some root)
    (hkind : c.allocates = some kind) (hroom : s.tree.nodes.slots.length + 1 ≤ 2 ^ 32) :
    ∃ (s' : Workbench root t) (id : NodeId), s.Leads [c] 1 0 s' ∧
      Plants s.forest s'.forest [.node id []] ∧ s'.forest.label id = some kind ∧
      ∃ h, s'.world.Receives s.world.handles.length h s'.tree ∧ h.tree = t ∧ h.node = id := by
  have hslab := s.wellFormed.slab
  obtain ⟨tree', id, halloc, hanswers⟩ := alloc_answers s.receives hslab hc hkind
  rw [s.handle_tree] at hanswers
  have hlength := (Slab.length_insert halloc.insert_eq).2
  have hfits : tree'.nodes.slots.length ≤ 2 ^ 32 := hlength.trans hroom
  obtain ⟨hnew, hG⟩ := halloc.represents s.represents hslab hfits
  have htrees : s.world.trees.set s.handle.tree tree' = s.world.trees.set t tree' :=
    congrArg (s.world.trees.set · tree') s.handle_tree
  have hroot : tree'.root = s.tree.root := by rw [halloc.frame]
  have hversion : tree'.version.toNat = s.tree.version.toNat + 0 := by rw [halloc.frame]; rfl
  obtain ⟨s', hworld, rfl, hforest, hleads⟩ := s.exists_step hanswers
    (Call.attachesSane_of_allocates hkind) (Call.removes_of_allocates hkind)
    (.of_not_bumps (Call.bumps_of_allocates hkind)) htrees hfits hroot hG
    (by simp [World.extend]) hlength hversion
  have hhandle : s'.world.handles[s.world.handles.length]? = some ⟨t, id, s'.tree.version⟩ := by
    rw [hworld, World.extend, ← World.length_handles_refreshed s.world root s.handle s'.tree,
      List.getElem?_concat_length]
  refine ⟨s', id, hleads, ?_, ?_, _, s'.receives_of_version hhandle rfl rfl, rfl, rfl⟩
  · rw [hforest]
    exact .setLabel hnew kind
  · rw [hforest]
    exact if_pos rfl

/-- **Appending a node on the workbench**: the receiver stays usable. -/
theorem exists_append (s : Workbench root t) (hrec : s.world.Receives self h s.tree)
    (ht : h.tree = t) (hx : s.world.handles[child]? = some x) (hxt : x.tree = t)
    (hlive : (s.forest.label x.node).isSome) (hbelow : h.node ∉ s.forest.subtree x.node)
    (hversion : s.tree.version.toNat + 1 < 2 ^ 64) :
    ∃ (s' : Workbench root t) (h' : Handle), s.Leads [.append self child] 0 1 s' ∧
      s.forest.Moves s'.forest h.node x.node (fun l => l ++ [x.node]) ∧
      s'.world.Receives self h' s'.tree ∧ h'.tree = t ∧ h'.node = h.node := by
  have hp : s.tree.Live h.node := s.sound.live hrec
  have hc : s.tree.Live x.node := s.represents.live_iff.mpr hlive
  obtain ⟨tree', G, hrun, hcons, hG, hmoves, hrelinked, hkept⟩ :=
    Attachment.append.run_moves s.wellFormed.toConsistent s.represents hp hc hbelow trivial
  have hanswers := append_answers hrec hx (ht.trans hxt.symm) hrun
  have hsane : Attachment.append.Sane s.tree h.node x.node :=
    ⟨s.represents.ancestorOrSelf_iff.not.mpr hbelow, trivial⟩
  have hoverflow : (Call.append self child).NoOverflow s.world := .of_receives rfl hrec hversion
  have htrees : s.world.trees.set h.tree tree' = s.world.trees.set t tree' :=
    congrArg (s.world.trees.set · tree') ht
  have hslots : tree'.nodes.slots.length = s.tree.nodes.slots.length + 0 := hrelinked.slots_eq
  have hfits : tree'.nodes.slots.length ≤ 2 ^ 32 :=
    hslots.trans_le (s.small s.tree (List.mem_of_getElem? s.tree_eq))
  have hroot : tree'.root = s.tree.root := by rw [hrelinked.frame]
  have hbumped : tree'.version.toNat = s.tree.version.toNat + 1 := by
    rw [hrelinked.frame]
    change (s.tree.version + 1).toNat = _
    rw [UInt64.toNat_add]
    exact Nat.mod_eq_of_lt hversion
  obtain ⟨s', hworld, rfl, rfl, hleads⟩ := s.exists_step hanswers
    (Call.attachesOnly_append hrec hx ⟨hc, hsane⟩) rfl hoverflow htrees hfits hroot hG
    (World.length_handles_refreshed ..) hslots.le hbumped
  have hrefreshed := World.handle_refreshed hrec.handle_eq s'.tree
  have hcontains : s'.tree.containsNode h.node = true := hkept h.node hp
  rw [if_pos hcontains, ← hworld] at hrefreshed
  exact ⟨s', _, hleads, hmoves, s'.receives_of_version hrefreshed ht rfl, ht, rfl⟩

/-! ## Many calls -/

/-- **Appending the planted trees** to one of them, one after the other. -/
theorem exists_appendAll {E : OrderedForest NodeId NodeType} {k : NodeId}
    (rs : List (Rose NodeId)) :
    ∀ (s : Workbench root t) (ks : List (Rose NodeId)) (h : Handle) (refs : List HandleRef),
      s.world.Receives self h s.tree → h.tree = t → h.node = k →
      Plants E s.forest (.node k ks :: rs) → s.world.Names t refs (rs.map Rose.root) →
      s.tree.version.toNat + rs.length < 2 ^ 64 →
      ∃ s' : Workbench root t, s.Leads (refs.map (.append self)) 0 rs.length s' ∧
        Plants E s'.forest [.node k (ks ++ rs)] ∧ s'.forest.label = s.forest.label ∧
        ∃ h', s'.world.Receives self h' s'.tree ∧ h'.tree = t ∧ h'.node = k := by
  induction rs with
  | nil =>
      intro s ks h refs hrec ht hk hplants hnames _
      obtain rfl : refs = [] := by simpa [World.Names] using hnames
      exact ⟨s, .nil, by simpa using hplants, rfl, h, hrec, ht, hk⟩
  | cons r rs ih =>
      intro s ks h refs hrec ht hk hplants hnames hversion
      rw [List.length_cons] at hversion
      obtain ⟨ref, refs, ⟨x, hx, hxt, hxr⟩, hrest, rfl⟩ := List.forall₂_cons_right_iff.mp hnames
      have hr : r ∈ .node k ks :: r :: rs := by simp
      -- the receiver is not below what it takes in
      have hne : k ≠ r.root := fun heq => by
        have hnodup := hplants.nodup_roots
        simp [heq] at hnodup
      have hbelow : h.node ∉ s.forest.subtree x.node := by
        rw [hk, hxr]
        exact fun hmem => hne (OrderedForest.eq_of_mem_subtree_root
          (hplants.parent_root (r := .node k ks) (by simp)) hmem)
      obtain ⟨s₁, h₁, hleads, hmoves, hrec₁, ht₁, hk₁⟩ := s.exists_append hrec ht hx hxt
        (hxr ▸ hplants.live_root hr) hbelow (by omega)
      rw [hk, hxr] at hmoves
      obtain ⟨s', hleads', hplants', hlabel, hself⟩ := ih s₁ (ks ++ [r]) h₁ refs hrec₁ ht₁
        (hk₁.trans hk) (hplants.adopt hmoves) (World.Names.mono hrest hleads.keeps)
        (by have hbumped := hleads.version; omega)
      refine ⟨s', ?_, by simpa using hplants', hlabel.trans hmoves.label, hself⟩
      rw [List.length_cons, Nat.add_comm]
      exact hleads.trans hleads'

end Workbench

/-! ## Building forms -/

/-- The handles to forms that are built one after the other, when the next new handle is `next`:
each form has a handle for each of its nodes, the last one to the form itself. -/
def builtRefs (next : HandleRef) : List (Form String) → List HandleRef
  | [] => []
  | form :: forms => (next + form.size - 1) :: builtRefs (next + form.size) forms

mutual

/-- **The calls that build a form**, detached in the tree of `root`: a list is allocated behind its
members, and then they are appended to it. -/
def buildCalls (root next : HandleRef) : Form String → List Call
  | .atom text => [.newAtom root text]
  | .list forms =>
      buildAllCalls root next forms ++ .newList root ::
        (builtRefs next forms).map (.append (next + Form.sizeAll forms))

/-- The calls that build forms, one after the other. -/
def buildAllCalls (root next : HandleRef) : List (Form String) → List Call
  | [] => []
  | form :: forms => buildCalls root next form ++ buildAllCalls root (next + form.size) forms

end

/-- Building `(a (b))` beside the root: `[.newAtom, .newAtom, .newList, .append, ..]`. -/
example : buildCalls 0 1 (.list [.atom "a", .list [.atom "b"]]) =
    [.newAtom 0 "a", .newAtom 0 "b", .newList 0, .append 3 2, .newList 0, .append 4 1,
      .append 4 3] := rfl

/-- Trees that are planted later leave the forms alone of those that are there. -/
theorem formOf_of_plants {F G : OrderedForest NodeId NodeType} {rs : List (Rose NodeId)}
    {r : Rose NodeId} (h : Plants F G rs) (hlive : ∀ m ∈ r.ids, (F.label m).isSome) :
    formOf G.label r = formOf F.label r :=
  formOf_congr r fun m hm => h.grows.label_eq m (h.grows.notMem_of_live (hlive m hm))

/-- The forms of planted trees stay when more trees are planted. -/
theorem map_formOf_of_plants {F G H : OrderedForest NodeId NodeType} {rs ss : List (Rose NodeId)}
    (h : Plants F G rs) (h' : Plants G H ss) :
    rs.map (formOf H.label) = rs.map (formOf G.label) :=
  List.map_congr_left fun r hr => formOf_of_plants h' fun m hm =>
    h.grows.live_new m (Rose.mem_idsAll.mpr ⟨r, hr, hm⟩)

/-- **The calls build the forms**: they lead on, and plant a tree for each form, to which there is a
handle. -/
def Workbench.Builds (s : Workbench root t) (calls : List Call) (refs : List HandleRef)
    (forms : List (Form String)) : Prop :=
  ∃ (s' : Workbench root t) (rs : List (Rose NodeId)),
    s.Leads calls (Form.sizeAll forms) (Form.sizeAll forms - forms.length) s' ∧
      Plants s.forest s'.forest rs ∧ rs.map (formOf s'.forest.label) = forms ∧
      s'.world.Names t refs (rs.map Rose.root)

/-- Building an atom. -/
theorem Workbench.builds_atom (s : Workbench root t) (text : String)
    (hroom : s.tree.nodes.slots.length + 1 ≤ 2 ^ 32) :
    s.Builds [.newAtom root text] [s.world.handles.length] [.atom text] := by
  obtain ⟨s', id, hleads, hplants, hlabel, h, hrec, ht, hid⟩ :=
    s.exists_alloc (c := .newAtom root text) rfl rfl hroom
  refine ⟨s', [.node id []], hleads, hplants, ?_, .cons ⟨h, hrec.handle_eq, ht, hid⟩ .nil⟩
  rw [List.map_singleton, formOf_atom hlabel, Atom.asStr_new]

/-- Building a list of what has been built. -/
theorem Workbench.Builds.list {forms : List (Form String)} {refs : List HandleRef}
    (hbuilds : s.Builds calls refs forms)
    (hroom : s.tree.nodes.slots.length + (Form.sizeAll forms + 1) ≤ 2 ^ 32)
    (hversion : s.tree.version.toNat + (Form.sizeAll forms + 1) < 2 ^ 64) :
    s.Builds (calls ++ .newList root ::
      refs.map (.append (s.world.handles.length + Form.sizeAll forms)))
      [s.world.handles.length + Form.sizeAll forms] [.list forms] := by
  obtain ⟨s₁, rs, hleads₁, hplants₁, hforms, hnames⟩ := hbuilds
  have hslots := hleads₁.slots
  have hbumps := hleads₁.version
  have hlength : rs.length = forms.length := by rw [← hforms, List.length_map]
  have hle := Form.length_le_sizeAll forms
  obtain ⟨s₂, k, hleads₂, hplants₂, hlabel, h, hrec, ht, hk⟩ :=
    s₁.exists_alloc (c := .newList root) rfl rfl (by omega)
  have hbumps₂ := hleads₂.version
  -- the new list is planted beside its members, and takes them in
  have hplants := (hplants₁.append hplants₂).perm (List.perm_append_singleton _ _)
  obtain ⟨s₃, hleads₃, hplants₃, hlabels, h', hrec', ht', hk'⟩ :=
    exists_appendAll rs s₂ [] h refs hrec ht hk hplants (hnames.mono hleads₂.keeps) (by omega)
  rw [hleads₁.handles] at hleads₃ hrec'
  refine ⟨s₃, [.node k rs], ?_, hplants₃, ?_, .cons ⟨h', hrec'.handle_eq, ht', hk'⟩ .nil⟩
  · have hleads := hleads₁.trans (hleads₂.trans hleads₃)
    rw [hlength] at hleads
    have hsame : Form.sizeAll forms - forms.length + (0 + forms.length) =
        Form.sizeAll [.list forms] - [Form.list forms].length := by
      simp
      omega
    rw [hsame] at hleads
    simpa using hleads
  · rw [List.map_singleton, hlabels, formOf_list hlabel, map_formOf_of_plants hplants₁ hplants₂,
      hforms]

/-- Building forms one after the other. -/
theorem Workbench.Builds.cons {form : Form String} {forms : List (Form String)}
    {refs refs' : List HandleRef} (hbuilds : s.Builds calls refs [form])
    (hrest : ∀ (s₁ : Workbench root t) (bumps : ℕ), s.Leads calls form.size bumps s₁ →
      bumps ≤ form.size → s₁.Builds calls' refs' forms) :
    s.Builds (calls ++ calls') (refs ++ refs') (form :: forms) := by
  obtain ⟨s₁, rs, hleads₁, hplants₁, hforms₁, hnames₁⟩ := hbuilds
  have hsize : Form.sizeAll [form] = form.size := by simp
  rw [hsize, List.length_singleton] at hleads₁
  obtain ⟨s₂, ss, hleads₂, hplants₂, hforms₂, hnames₂⟩ :=
    hrest s₁ _ hleads₁ (Nat.sub_le _ _)
  refine ⟨s₂, rs ++ ss, ?_, hplants₁.append hplants₂, ?_, ?_⟩
  · have hpos := form.size_pos
    have hle := Form.length_le_sizeAll forms
    have hsame : form.size - 1 + (Form.sizeAll forms - forms.length) =
        Form.sizeAll (form :: forms) - (form :: forms).length := by
      rw [Form.sizeAll_cons, List.length_cons]
      omega
    rw [← hsame, Form.sizeAll_cons]
    exact hleads₁.trans hleads₂
  · rw [List.map_append, map_formOf_of_plants hplants₁ hplants₂, hforms₁, hforms₂,
      List.singleton_append]
  · rw [List.map_append]
    exact List.rel_append (hnames₁.mono hleads₂.keeps) hnames₂

mutual

/-- **Every form can be built** in every tree that has room for it. -/
theorem Workbench.builds_form (form : Form String) (s : Workbench root t)
    (hroom : s.tree.nodes.slots.length + form.size ≤ 2 ^ 32)
    (hversion : s.tree.version.toNat + form.size < 2 ^ 64) :
    s.Builds (buildCalls root s.world.handles.length form)
      (builtRefs s.world.handles.length [form]) [form] := by
  cases form with
  | atom text => exact s.builds_atom text hroom
  | list forms =>
      rw [Form.size_list] at hroom hversion
      exact (Workbench.builds_forms forms s (by omega) (by omega)).list hroom hversion

/-- Forms can be built one after the other. -/
theorem Workbench.builds_forms (forms : List (Form String)) (s : Workbench root t)
    (hroom : s.tree.nodes.slots.length + Form.sizeAll forms ≤ 2 ^ 32)
    (hversion : s.tree.version.toNat + Form.sizeAll forms < 2 ^ 64) :
    s.Builds (buildAllCalls root s.world.handles.length forms)
      (builtRefs s.world.handles.length forms) forms := by
  cases forms with
  | nil => exact ⟨s, [], .nil, .nil, rfl, .nil⟩
  | cons form forms =>
      rw [Form.sizeAll_cons] at hroom hversion
      refine (Workbench.builds_form form s (by omega) (by omega)).cons fun s₁ bumps hleads hle => ?_
      have hslots := hleads.slots
      have hbumps := hleads.version
      rw [← hleads.handles]
      exact Workbench.builds_forms forms s₁ (by omega) (by omega)

end

/-! ## Building trees -/

/-- **The calls that build a list** as the root of a new tree, when the next new handle is
`root`. -/
def buildTree (root : HandleRef) (forms : List (Form String)) : List Call :=
  .new :: (buildAllCalls root (root + 1) forms ++
    (builtRefs (root + 1) forms).map (.append root))

/-- The trees are small at the end of a calm run. -/
theorem small_of_run {events : List ApiEvent} (hrun : ApiRun events w)
    (hcalm : ∀ e ∈ events, e.Calm) : w.Small := by
  cases hrun with
  | nil => exact fun tree htree => by cases htree
  | cons _ _ => exact (hcalm _ List.mem_cons_self).small

/-- **`SExp()` makes a workbench**, with an empty list. -/
theorem exists_workbench (hsound : w.Sound) (hsmall : w.Small) :
    ∃ s : Workbench w.handles.length w.trees.length, w.Does [.new] s.world ∧
      w.Keeps s.world ∧ s.world = w.push s.tree ∧ s.tree = singleList ∧
      Plants .empty s.forest [.node s.tree.root []] ∧
      s.forest.label s.tree.root = some .list := by
  have hcall : ∀ fuel, call fuel .new w =
      .ok (.ok (.sexp w.handles.length), w.push singleList) := fun _ => rfl
  have he := call_effect (hcall 0)
  have hsmall' : (w.push singleList).Small := by
    intro tree htree
    rcases List.mem_append.mp htree with hold | hnew
    · exact hsmall tree hold
    · obtain rfl := List.mem_singleton.mp hnew
      decide
  have hcalm : ApiEvent.Calm ⟨w, ⟨.new, .ok (.sexp w.handles.length)⟩, w.push singleList⟩ := by
    refine ⟨Call.attachesOnly_of_none fun _ _ _ _ hop => ?_, fun _ _ _ hself => ?_,
      .of_not_bumps rfl, hsmall'⟩
    · cases hop
    · cases hself
  have hhandle : (w.push singleList).handles[w.handles.length]? =
      some ⟨w.trees.length, ⟨0⟩, 0⟩ := List.getElem?_concat_length ..
  have htree : (w.push singleList).trees[w.trees.length]? = some singleList :=
    List.getElem?_concat_length ..
  have hlabel : (OrderedForest.empty.setLabel (⟨0⟩ : NodeId) NodeType.list).label ⟨0⟩ =
      some .list := by simp [OrderedForest.setLabel]
  exact ⟨⟨w.push singleList, singleList, _, _, hcalm.sound hsound he, hsmall',
    ⟨hhandle, htree, rfl⟩, rfl, rfl, represents_single .list⟩, .single ⟨0, hcall 0⟩ hcalm,
    .of_effect he, rfl, rfl, .setLabel rfl NodeType.list, hlabel⟩

/-- **Every list can be built.** After every calm run, for all forms for whose nodes there are keys:
the calls of `buildTree` return and are calm; they add one tree to those that are there and leave
these alone; and the root of the new tree, to which the first new handle is, denotes the list of the
forms. -/
theorem list_buildable {events : List ApiEvent} (hrun : ApiRun events w)
    (hcalm : ∀ e ∈ events, e.Calm) (forms : List (Form String))
    (hsize : (Form.list forms).size ≤ 2 ^ 32) :
    ∃ w' tree, w.Does (buildTree w.handles.length forms) w' ∧ w'.trees = w.trees ++ [tree] ∧
      w.Keeps w' ∧ (∃ h, w'.Receives w.handles.length h tree ∧ h.node = tree.root) ∧
      tree.Denotes tree.root (.list forms) ∧
      Answers (fun fuel => serialize fuel tree) (print (.list forms)) := by
  obtain ⟨s, hdoes, hkeeps, hworld, htree, hroot, hlabel⟩ :=
    exists_workbench (sound_of_run hrun hcalm) (small_of_run hrun hcalm)
  rw [Form.size_list] at hsize
  have hslots : s.tree.nodes.slots.length = 1 := by rw [htree]; rfl
  have hversion : s.tree.version.toNat = 0 := by rw [htree]; rfl
  have hhandles : s.world.handles.length = w.handles.length + 1 := by simp [hworld, World.push]
  obtain ⟨s₁, rs, hleads₁, hplants₁, hforms, hnames⟩ :=
    Workbench.builds_forms forms s (by omega) (by omega)
  have hbumps := hleads₁.version
  have hlength : rs.length = forms.length := by rw [← hforms, List.length_map]
  have hle := Form.length_le_sizeAll forms
  obtain ⟨s₂, hleads₂, hplants₂, hlabels, h, hrec, -, hnode⟩ := Workbench.exists_appendAll rs s₁ []
    s₁.handle _ s₁.receives s₁.handle_tree (s₁.handle_node.trans hleads₁.root_eq)
    (hroot.append hplants₁) hnames (by omega)
  rw [hhandles] at hleads₁ hleads₂
  have hleads := hleads₁.trans hleads₂
  have hdenotes : s₂.tree.Denotes s₂.tree.root (.list forms) := by
    have hlive : (s.forest.label s.tree.root).isSome := by rw [hlabel]; rfl
    have hlist : s₂.forest.label s.tree.root = some .list := by
      rw [hlabels, hplants₁.grows.label_eq _ (hplants₁.grows.notMem_of_live hlive), hlabel]
    refine ⟨s₂.forest, _, s₂.represents, s₂.represents.live_iff.mp s₂.wellFormed.root_live,
      hplants₂.grows.spans _ List.mem_cons_self, hleads.root_eq.symm, ?_⟩
    rw [formOf_list hlist, hlabels, List.nil_append, hforms]
  refine ⟨s₂.world, s₂.tree, hdoes.trans hleads.does, ?_, hkeeps.trans hleads.keeps,
    ⟨h, hrec, hnode.trans hleads.root_eq.symm⟩, hdenotes, serializeNode_answers hdenotes⟩
  rw [hleads.trees, hworld]
  simp [World.push]

/-- `list_buildable` at `(a ())`, beside a list in a list. -/
theorem list_buildable_nested :
    ∃ w' tree, nested.Does (buildTree 2 [.atom "a", .list []]) w' ∧
      w'.trees = [nestedLists, tree] ∧
      Answers (fun fuel => serialize fuel tree) "(a ())" := by
  obtain ⟨w', tree, hdoes, htrees, -, -, -, htext⟩ :=
    list_buildable run_nested eventsNested_calm [.atom "a", .list []] (by decide)
  exact ⟨w', tree, hdoes, htrees, htext⟩

end Sexp
