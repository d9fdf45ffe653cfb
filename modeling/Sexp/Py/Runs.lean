import Sexp.Core.AnyTree
import Sexp.Parse.AnyText
import Sexp.Py.Effect

/-! # Runs of the library

A step of the library either raises and leaves the objects as they are, or has one of the effects
that `Effect` lists. What every write of a tree and every created tree satisfies therefore holds of
all trees in every run (`Effect.forall_tree`, `ApiRun.invariant`).

The conditions under which the library keeps its promises are conditions on the calls of a run, in
the state before each of them: what is attached where (`Call.AttachesOnly`), what is removed
(`Call.RemovesOnly`), and that the version of a tree does not overflow (`Call.NoOverflow`). -/

namespace Sexp

open Library (Run)

variable {fuel : Nat} {w w' : World} {c : Call} {v : Value} {events : List ApiEvent}

/-! ## Conditions on calls -/

/-- Whether a call bumps the version of the tree of its receiver. -/
def Call.bumps : Call → Bool
  | .append _ _ | .prepend _ _ | .insertAfter _ _ _ | .remove _ | .extract _ => true
  | _ => false

/-- A call that removes its receiver bumps the version. -/
theorem Call.bumps_of_removes (h : c.removes = true) : c.bumps = true := by
  cases c <;> first | rfl | cases h

/-- A call that allocates a node does not bump the version. -/
theorem Call.bumps_of_allocates {kind : NodeType} (h : c.allocates = some kind) :
    c.bumps = false := by
  cases c <;> first | rfl | cases h

/-- A call that edits nothing does not bump the version. -/
theorem Call.bumps_of_edits (h : c.edits = false) : c.bumps = false := by
  cases c <;> first | rfl | cases h

/-- A call that does not bump the version removes nothing. -/
theorem Call.removes_of_bumps (h : c.bumps = false) : c.removes = false := by
  rw [Bool.eq_false_iff] at h ⊢
  exact fun hremoves => h (Call.bumps_of_removes hremoves)

/-- **A condition on what a call attaches.** When the checks of the call have passed, so that it is
about to run `op` on `tree` with the node of its receiver as parent, `P` holds. -/
def Call.AttachesOnly (P : Tree → NodeId → Attachment → NodeId → Prop) (w : World) (c : Call) :
    Prop :=
  ∀ self h tree op child, c.self? = some self → w.Receives self h tree →
    w.Attaching h tree c op child → P tree h.node op child

/-- What is attached meets a weaker condition, too. -/
theorem Call.AttachesOnly.imp {P Q : Tree → NodeId → Attachment → NodeId → Prop}
    (h : c.AttachesOnly P w) (hPQ : ∀ tree parent op child, P tree parent op child →
      Q tree parent op child) : c.AttachesOnly Q w :=
  fun self hd tree op child hself hrec hop => hPQ _ _ _ _ (h self hd tree op child hself hrec hop)

/-- **A condition on what a call removes.** When the call is about to remove the node of its
receiver, which is not the root, `P` holds. -/
def Call.RemovesOnly (P : Tree → NodeId → Prop) (w : World) (c : Call) : Prop :=
  ∀ self h tree, c.self? = some self → w.Receives self h tree → c.removes = true →
    h.node ≠ tree.root → P tree h.node

/-- **The version of the receiver's tree does not overflow**: the `u64` counter is not at its
maximum when the call bumps it. -/
def Call.NoOverflow (w : World) (c : Call) : Prop :=
  ∀ self h tree, c.self? = some self → w.Receives self h tree → c.bumps = true →
    tree.version.toNat + 1 < 2 ^ 64

/-- A call that does not bump the version overflows none. -/
theorem Call.NoOverflow.of_not_bumps (h : c.bumps = false) : c.NoOverflow w := by
  intro self hd tree _ _ hbumps
  rw [h] at hbumps
  cases hbumps

/-- The version of the receiver's tree is the only one that may overflow. -/
theorem Call.NoOverflow.of_receives {self : HandleRef} {h : Handle} {tree : Tree}
    (hself : c.self? = some self) (hrec : w.Receives self h tree)
    (hversion : tree.version.toNat + 1 < 2 ^ 64) : c.NoOverflow w := by
  intro self' h' tree' hself' hrec' _
  obtain rfl := Option.some.inj (hself.symm.trans hself')
  obtain rfl := Option.some.inj (hrec.handle_eq.symm.trans hrec'.handle_eq)
  obtain rfl := Option.some.inj (hrec.tree_eq.symm.trans hrec'.tree_eq)
  exact hversion

/-- A version that is bumped without an overflow grows. -/
theorem version_lt_succ {version : UInt64} (h : version.toNat + 1 < 2 ^ 64) :
    version < version + 1 := by
  rw [UInt64.lt_iff_toNat_lt, UInt64.toNat_add]
  simp only [UInt64.reduceToNat]
  omega

/-- `P` holds of all trees. -/
def World.AllTrees (P : Tree → Prop) (w : World) : Prop := ∀ tree ∈ w.trees, P tree

/-- **No tree has more slots than there are keys**: a key is a `u32`. -/
def World.Small (w : World) : Prop := w.AllTrees fun tree => tree.nodes.slots.length ≤ 2 ^ 32

/-! ## What a write does to the frame of a tree -/

namespace World.Writes

variable {h : Handle} {tree tree' : Tree}

/-- A write keeps the root, and the flag of a bare tree. -/
theorem frame (hwrite : w.Writes fuel h tree c tree') :
    tree'.root = tree.root ∧ tree'.bare = tree.bare := by
  cases hwrite with
  | cache htext => exact ⟨rfl, rfl⟩
  | value hn hatom => exact ⟨rfl, rfl⟩
  | alloc hc halloc =>
      rw [halloc.frame]
      exact ⟨rfl, rfl⟩
  | attach hop hrun =>
      rw [(Attachment.run_relinked hrun).frame]
      exact ⟨rfl, rfl⟩
  | remove hc hne hremove =>
      rw [remove_sameFrame hremove]
      exact ⟨rfl, rfl⟩

/-- A write keeps the root. -/
theorem root_eq (hwrite : w.Writes fuel h tree c tree') : tree'.root = tree.root := hwrite.frame.1

/-- A write keeps the flag of a bare tree. -/
theorem bare_eq (hwrite : w.Writes fuel h tree c tree') : tree'.bare = tree.bare := hwrite.frame.2

/-- **A write bumps the version or keeps it.** -/
theorem version_eq (hwrite : w.Writes fuel h tree c tree') :
    tree'.version = if c.bumps then tree.version + 1 else tree.version := by
  cases hwrite with
  | cache htext => rfl
  | value hn hatom => rfl
  | alloc hc halloc =>
      rw [Call.bumps_of_allocates hc, halloc.frame]
      rfl
  | attach hop hrun =>
      have hbumps : c.bumps = true := by cases hop <;> rfl
      rw [hbumps, (Attachment.run_relinked hrun).frame]
      rfl
  | remove hc hne hremove =>
      rw [Call.bumps_of_removes hc, remove_sameFrame hremove]
      rfl

/-- A write that does not bump the version frees no node. -/
theorem live (hwrite : w.Writes fuel h tree c tree') (hslab : tree.nodes.WellFormed)
    (hbumps : c.bumps = false) {id : NodeId} (hid : tree.Live id) : tree'.Live id := by
  cases hwrite with
  | cache htext => exact hid
  | value hn hatom =>
      unfold Tree.Live Tree.withValue Tree.clearReprCache
      rwa [Slab.isSome_get_update]
  | alloc hc halloc =>
      obtain ⟨n, hn⟩ := Option.isSome_iff_exists.mp hid
      rw [Tree.Live, halloc.get_of_live hslab hn]
      rfl
  | attach hop hrun => cases hop <;> cases hbumps
  | remove hc hne hremove =>
      rw [Call.bumps_of_removes hc] at hbumps
      cases hbumps

/-- A write of a call that removes its receiver removes its node. -/
theorem of_removes (hwrite : w.Writes fuel h tree c tree') (hc : c.removes = true) :
    ∃ tree₁, Sexp.remove fuel tree h.node = .ok tree₁ ∧ tree' = tree₁.bumpVersion := by
  cases hwrite with
  | cache _ => cases hc
  | value _ _ => cases hc
  | alloc hallocates _ =>
      rw [Call.removes_of_bumps (Call.bumps_of_allocates hallocates)] at hc
      cases hc
  | attach hop _ => cases hop <;> cases hc
  | @remove _ tree₁ _ _ hremove => exact ⟨tree₁, hremove, rfl⟩

end World.Writes

/-! ## Steps and runs -/

/-- **What a step does**: it raises and changes nothing, or it has an effect. -/
theorem ApiStep.cases {l : CallResult} (h : ApiStep w l w') :
    ((∃ e, l.result = .error e) ∧ w' = w) ∨
      ∃ fuel v, l.result = .ok v ∧ Effect fuel w l.call v w' := by
  obtain ⟨fuel, hcall⟩ := h
  obtain ⟨c, result⟩ := l
  rcases result with e | v
  · exact .inl ⟨⟨e, rfl⟩, call_atomic fuel c _ _ _ hcall⟩
  · exact .inr ⟨fuel, v, rfl, call_effect hcall⟩

/-- **The invariant rule of the library.** What holds without objects, and is kept by every effect
of a call that meets the condition `C`, holds at the end of every run whose events all do. -/
theorem ApiRun.invariant {P : World → Prop} {C : ApiEvent → Prop} (hrun : ApiRun events w)
    (hempty : P World.empty)
    (hstep : ∀ e fuel v, C e → P e.before → Effect fuel e.before e.label.call v e.after →
      P e.after)
    (hC : ∀ e ∈ events, C e) : P w := by
  refine Run.invariant hrun hempty fun e he hbefore hapi => ?_
  rcases hapi.cases with ⟨-, heq⟩ | ⟨fuel, v, -, heffect⟩
  · rwa [heq]
  · exact hstep e fuel v (hC e he) hbefore heffect

/-- The invariant rule, for the states before and after the events of the run. -/
theorem ApiRun.invariant_around {P : World → Prop} {C : ApiEvent → Prop} (hrun : ApiRun events w)
    (hempty : P World.empty)
    (hstep : ∀ e fuel v, C e → P e.before → Effect fuel e.before e.label.call v e.after →
      P e.after)
    (hC : ∀ e ∈ events, C e) : ∀ e ∈ events, P e.before ∧ P e.after := by
  refine Run.invariant_around hrun hempty fun e he hbefore hapi => ?_
  rcases hapi.cases with ⟨-, heq⟩ | ⟨fuel, v, -, heffect⟩
  · rwa [heq]
  · exact hstep e fuel v (hC e he) hbefore heffect

/-- **What every created tree satisfies**, when the trees that exist do: a copy of a root is the
tree itself, and every other created tree is new, parsed, or copied from a node below a root. -/
theorem World.Creates.of_sources {P : Tree → Prop} {tree : Tree} (hcreate : w.Creates fuel c tree)
    (hP : w.AllTrees P) (hnew : Tree.new = .ok tree → P tree)
    (hparse : ∀ s, Sexp.parse fuel s = .ok (.ok tree) → P tree)
    (hclone : ∀ source n, P source → n ≠ source.root → cloneSubtree fuel source n = .ok tree →
      P tree) : P tree := by
  cases hcreate with
  | new h => exact hnew h
  | parse hs h => exact hparse _ h
  | @clone self h source copy hself hcopy =>
      have hsource := hP source (List.mem_of_getElem? hself.tree_eq)
      by_cases hroot : h.node = source.root
      · rw [cloneSubtree, if_pos hroot] at hcopy
        cases hcopy
        exact hsource
      · exact hclone source h.node hsource hroot hcopy
  | @extract self h source copy hself hne hcopy =>
      exact hclone source h.node (hP source (List.mem_of_getElem? hself.tree_eq)) hne hcopy

/-- **What writing and creating trees keep, every effect keeps.** -/
theorem Effect.forall_tree {P : Tree → Prop} (he : Effect fuel w c v w')
    (hwrite : ∀ self h tree tree', c.self? = some self → w.Receives self h tree →
      w.Writes fuel h tree c tree' → tree' ∈ w'.trees → P tree → P tree')
    (hcreate : ∀ tree, w.Creates fuel c tree → tree ∈ w'.trees → P tree)
    (hP : w.AllTrees P) : w'.AllTrees P := by
  -- a receiver's tree is one of the trees, and is written at its place
  have hset : ∀ {self h tree} (tree' : Tree), w.Receives self h tree →
      tree' ∈ w.trees.set h.tree tree' := fun {self h tree} tree' hrec =>
    List.mem_set (List.getElem?_eq_some_iff.mp hrec.tree_eq).1 _
  intro t ht
  cases he with
  | observe _ _ _ => exact hP t ht
  | next _ _ _ _ _ => exact hP t ht
  | create _ hc =>
      rcases List.mem_append.mp ht with hold | hnew
      · exact hP t hold
      · obtain rfl := List.mem_singleton.mp hnew
        exact hcreate t hc ht
  | write hc hself _ _ hw =>
      rcases List.mem_or_eq_of_mem_set ht with hold | rfl
      · exact hP t hold
      · exact hwrite _ _ _ _ hc hself hw ht (hP _ (List.mem_of_getElem? hself.tree_eq))
  | alloc hc hself halloc hallocated =>
      rcases List.mem_or_eq_of_mem_set ht with hold | rfl
      · exact hP t hold
      · exact hwrite _ _ _ _ hc hself (.alloc halloc hallocated) ht
          (hP _ (List.mem_of_getElem? hself.tree_eq))
  | extract hself hne hclone hremove =>
      rcases List.mem_append.mp ht with hold | hnew
      · rcases List.mem_or_eq_of_mem_set hold with hold | rfl
        · exact hP t hold
        · exact hwrite _ _ _ _ rfl hself (.remove rfl hne hremove) ht
            (hP _ (List.mem_of_getElem? hself.tree_eq))
      · obtain rfl := List.mem_singleton.mp hnew
        exact hcreate t (.extract hself hne hclone) ht

/-- A receiver's tree is written at its place. -/
theorem World.trees_refreshed {self : HandleRef} {h : Handle} {tree : Tree}
    (hrec : w.Receives self h tree) (tree' : Tree) :
    (w.refreshed self h tree').trees[h.tree]? = some tree' :=
  List.getElem?_set_self (List.getElem?_eq_some_iff.mp hrec.tree_eq).1

/-- The other trees stay. -/
theorem World.trees_refreshed_of_ne {self : HandleRef} {h : Handle} {tree' : Tree} {t : Nat}
    (ht : h.tree ≠ t) : (w.refreshed self h tree').trees[t]? = w.trees[t]? :=
  List.getElem?_set_ne ht

/-- **What a call that allocates a node does**: it allocates the node in the tree of its receiver,
and creates a handle to it. -/
theorem Effect.of_allocates {kind : NodeType} (he : Effect fuel w c v w')
    (hc : c.allocates = some kind) :
    ∃ self h tree tree' id, c.self? = some self ∧ w.Receives self h tree ∧
      tree.Allocated tree' id kind ∧ v = .sexp w.handles.length ∧
      w' = (w.refreshed self h tree').extend [⟨h.tree, id, tree'.version⟩] [] := by
  cases he with
  | observe hedits _ _ => cases c <;> simp [Call.allocates, Call.edits] at hc hedits
  | next _ _ _ _ _ => cases hc
  | create _ hcreate => cases hcreate <;> cases hc
  | write _ _ halloc _ _ =>
      rw [hc] at halloc
      cases halloc
  | @alloc _ self h tree tree' id kind' hself hrec hkind hallocated =>
      obtain rfl : kind' = kind := Option.some.inj (hkind.symm.trans hc)
      exact ⟨self, h, tree, tree', id, hself, hrec, hallocated, rfl, rfl⟩
  | extract _ _ _ _ => cases hc

/-- **What becomes of a tree**: it stays, or is written by a call on a receiver in it. -/
theorem Effect.tree_step (he : Effect fuel w c v w') {t : Nat} {tree : Tree}
    (ht : w.trees[t]? = some tree) : ∃ tree', w'.trees[t]? = some tree' ∧
      (tree' = tree ∨ ∃ self h, c.self? = some self ∧ w.Receives self h tree ∧ h.tree = t ∧
        w.Writes fuel h tree c tree') := by
  -- a tree in a list that only grows
  have hgrows : ∀ {l : List Tree} {tree' : Tree} (new : Tree), l[t]? = some tree' →
      (l ++ [new])[t]? = some tree' := fun new hold => by
    rw [List.getElem?_append_left (List.getElem?_eq_some_iff.mp hold).1, hold]
  -- the tree of the receiver is the written one, and the others stay
  have hwrites : ∀ {self h treeh tree'}, c.self? = some self → w.Receives self h treeh →
      w.Writes fuel h treeh c tree' → ∃ tree'', (w.refreshed self h tree').trees[t]? = some tree'' ∧
        (tree'' = tree ∨ ∃ self h, c.self? = some self ∧ w.Receives self h tree ∧ h.tree = t ∧
          w.Writes fuel h tree c tree'') := by
    intro self h treeh tree' hself hrec hwrite
    by_cases hh : h.tree = t
    · subst hh
      obtain rfl := Option.some.inj (hrec.tree_eq.symm.trans ht)
      exact ⟨tree', World.trees_refreshed hrec tree', .inr ⟨self, h, hself, hrec, rfl, hwrite⟩⟩
    · exact ⟨tree, (World.trees_refreshed_of_ne hh).trans ht, .inl rfl⟩
  cases he with
  | observe _ _ _ => exact ⟨tree, ht, .inl rfl⟩
  | next _ _ _ _ _ => exact ⟨tree, ht, .inl rfl⟩
  | create _ _ => exact ⟨tree, hgrows _ ht, .inl rfl⟩
  | write hself hrec _ _ hwrite => exact hwrites hself hrec hwrite
  | alloc hself hrec halloc hallocated => exact hwrites hself hrec (.alloc halloc hallocated)
  | extract hrec hne hclone hremove =>
      obtain ⟨tree', htree', hcases⟩ := hwrites rfl hrec (.remove rfl hne hremove)
      exact ⟨tree', hgrows _ htree', hcases⟩

/-- What holds of every tree in every state holds of the trees of the last one. -/
theorem ApiRun.forall_tree {P : Tree → Prop} {C : ApiEvent → Prop} (hrun : ApiRun events w)
    (hwrite : ∀ e fuel self h tree tree', C e → e.label.call.self? = some self →
      e.before.Receives self h tree → e.before.Writes fuel h tree e.label.call tree' →
      tree' ∈ e.after.trees → P tree → P tree')
    (hcreate : ∀ e fuel tree, C e → e.before.AllTrees P →
      e.before.Creates fuel e.label.call tree → tree ∈ e.after.trees → P tree)
    (hC : ∀ e ∈ events, C e) : w.AllTrees P := by
  have hempty : World.empty.AllTrees P := by simp [World.AllTrees, World.empty]
  refine ApiRun.invariant hrun hempty (fun e fuel v he hbefore heffect => ?_) hC
  exact heffect.forall_tree (fun self h tree tree' => hwrite e fuel self h tree tree' he)
    (fun tree => hcreate e fuel tree he hbefore) hbefore

/-! ## A short run -/

/-- The tree of `SExp()`. -/
def singleList : Tree := Tree.fromRaw ⟨[some Node.newList], []⟩ ⟨0⟩

/-- The objects after `t = SExp()`. -/
def oneList : World := ⟨[singleList], [⟨0, ⟨0⟩, 0⟩], []⟩

/-- `singleList` with another list, which is not attached. -/
def looseLists : Tree := Tree.fromRaw ⟨[some Node.newList, some Node.newList], []⟩ ⟨0⟩

/-- The objects after `t = SExp(); l = t.new_list()`. -/
def twoLists : World := ⟨[looseLists], [⟨0, ⟨0⟩, 0⟩, ⟨0, ⟨1⟩, 0⟩], []⟩

/-- `SExp()` without objects. -/
theorem step_oneList : ApiStep World.empty ⟨.new, .ok (.sexp 0)⟩ oneList := ⟨0, rfl⟩

/-- `t.new_list()` after it. -/
theorem step_twoLists : ApiStep oneList ⟨.newList 0, .ok (.sexp 1)⟩ twoLists := ⟨0, rfl⟩

/-- The events of the run `t = SExp(); l = t.new_list()`. -/
def eventsTwoLists : List ApiEvent :=
  [⟨oneList, ⟨.newList 0, .ok (.sexp 1)⟩, twoLists⟩,
    ⟨World.empty, ⟨.new, .ok (.sexp 0)⟩, oneList⟩]

/-- The run `t = SExp(); l = t.new_list()`. -/
theorem run_twoLists : ApiRun eventsTwoLists twoLists :=
  (Run.nil.cons step_oneList).cons step_twoLists

/-- The tree of `looseLists` with the second list below the root. -/
def nestedLists : Tree where
  nodes :=
    ⟨[some { Node.newList with firstChild := some ⟨1⟩, lastChild := some ⟨1⟩, childCount := 1 },
      some { Node.newList with parent := some ⟨0⟩ }], []⟩
  root := ⟨0⟩
  version := 1
  bare := false
  reprCache := none

/-- The objects after `t.append(l)`. -/
def nested : World := ⟨[nestedLists], [⟨0, ⟨0⟩, 1⟩, ⟨0, ⟨1⟩, 0⟩], []⟩

/-- `t.append(l)` after it. -/
theorem step_nested : ApiStep twoLists ⟨.append 0 1, .ok .none⟩ nested := ⟨0, rfl⟩

/-- The events of the run `t = SExp(); l = t.new_list(); t.append(l)`. -/
def eventsNested : List ApiEvent :=
  ⟨twoLists, ⟨.append 0 1, .ok .none⟩, nested⟩ :: eventsTwoLists

/-- The run `t = SExp(); l = t.new_list(); t.append(l)`. -/
theorem run_nested : ApiRun eventsNested nested := run_twoLists.cons step_nested

/-- A call that runs no attaching operation meets every condition on what is attached. -/
theorem Call.attachesOnly_of_none {P : Tree → NodeId → Attachment → NodeId → Prop}
    (h : ∀ h tree op child, ¬ w.Attaching h tree c op child) : c.AttachesOnly P w :=
  fun _ hd tree op child _ _ hop => absurd hop (h hd tree op child)

/-- What `append` attaches: the node of its argument, below the one of its receiver. -/
theorem Call.attachesOnly_append {P : Tree → NodeId → Attachment → NodeId → Prop}
    {self child : HandleRef} {h x : Handle} {tree : Tree} (hrec : w.Receives self h tree)
    (hx : w.handles[child]? = some x) (hP : P tree h.node .append x.node) :
    (Call.append self child).AttachesOnly P w := by
  intro self' h' tree' op node hself hrec' hop
  cases hself
  obtain rfl := Option.some.inj (hrec.handle_eq.symm.trans hrec'.handle_eq)
  obtain rfl := Option.some.inj (hrec.tree_eq.symm.trans hrec'.tree_eq)
  cases hop with
  | append hc _ =>
      obtain rfl := Option.some.inj (hx.symm.trans hc)
      exact hP

/-- What `t.append(l)` attaches in `twoLists`. -/
theorem attachesOnly_twoLists {P : Tree → NodeId → Attachment → NodeId → Prop}
    (h : P looseLists ⟨0⟩ .append ⟨1⟩) : (Call.append 0 1).AttachesOnly P twoLists := by
  have hrec : twoLists.Receives 0 ⟨0, ⟨0⟩, 0⟩ looseLists := ⟨rfl, rfl, rfl⟩
  exact Call.attachesOnly_append hrec rfl h

/-- What holds of the three calls holds along the run `t = SExp(); l = t.new_list(); t.append(l)`.
-/
theorem forall_eventsNested {P : ApiEvent → Prop}
    (hnew : P ⟨World.empty, ⟨.new, .ok (.sexp 0)⟩, oneList⟩)
    (hlist : P ⟨oneList, ⟨.newList 0, .ok (.sexp 1)⟩, twoLists⟩)
    (happend : P ⟨twoLists, ⟨.append 0 1, .ok .none⟩, nested⟩) : ∀ e ∈ eventsNested, P e := by
  intro e he
  simp only [eventsNested, eventsTwoLists, List.mem_cons, List.not_mem_nil, or_false] at he
  rcases he with rfl | rfl | rfl
  · exact happend
  · exact hlist
  · exact hnew

/-- **Conditions along the run**: only its last call attaches. -/
theorem eventsNested_attachesOnly (P : Tree → NodeId → Attachment → NodeId → Prop)
    (h : P looseLists ⟨0⟩ .append ⟨1⟩) :
    ∀ e ∈ eventsNested, e.label.call.AttachesOnly P e.before := by
  apply forall_eventsNested
  · exact Call.attachesOnly_of_none fun _ _ _ _ hop => by cases hop
  · exact Call.attachesOnly_of_none fun _ _ _ _ hop => by cases hop
  · exact attachesOnly_twoLists h

/-- The trees of the run are small. -/
theorem eventsNested_small : ∀ e ∈ eventsNested, e.after.Small := by
  apply forall_eventsNested
  · simp [World.Small, World.AllTrees, oneList, singleList, Tree.fromRaw]
  · simp [World.Small, World.AllTrees, twoLists, looseLists, Tree.fromRaw]
  · simp [World.Small, World.AllTrees, nested, nestedLists]

/-- No version overflows in the run. -/
theorem eventsNested_noOverflow : ∀ e ∈ eventsNested, e.label.call.NoOverflow e.before := by
  apply forall_eventsNested
  · exact .of_not_bumps rfl
  · exact .of_not_bumps rfl
  · have hrec : twoLists.Receives 0 ⟨0, ⟨0⟩, 0⟩ looseLists := ⟨rfl, rfl, rfl⟩
    exact .of_receives rfl hrec (by decide)

/-- `nestedLists` is well-formed. -/
theorem nestedLists_wellFormed : nestedLists.WellFormed := by
  have hloose : looseLists.WellFormed := wellFormed_unlinked .list [.list] (by decide)
  exact hloose.append (p := ⟨0⟩) (c := ⟨1⟩) rfl rfl rfl (by decide)
    (rfl : append 0 looseLists ⟨0⟩ ⟨1⟩ = .ok nestedLists)

/-- The nodes of `nestedLists` are lists. -/
theorem nestedLists_kind {id : NodeId} {m : Node} (hm : nestedLists.nodes.get id = some m) :
    m.kind = .list := by
  have hslot := Slab.mem_slots hm
  simp only [nestedLists, List.mem_cons, List.not_mem_nil, or_false, Option.some.injEq] at hslot
  rcases hslot with rfl | rfl
  · rfl
  · rfl

/-- `nestedLists` has no atoms. -/
theorem nestedLists_leafAtoms : nestedLists.LeafAtoms := by
  intro id m hm hatom
  rw [Node.isAtom, nestedLists_kind hm] at hatom
  cases hatom

/-! ## A parsed text -/

/-- The objects after `t = parse("((a (b)) c ())")`. -/
def parsedMixed : World := ⟨[mixedTree], [⟨0, ⟨0⟩, 0⟩], []⟩

/-- `parse("((a (b)) c ())")` without objects. -/
theorem step_parsedMixed :
    ApiStep World.empty ⟨.parse (.str "((a (b)) c ())"), .ok (.sexp 0)⟩ parsedMixed := by
  have hparse : Sexp.parse 40 "((a (b)) c ())" = .ok (.ok mixedTree) := by decide +kernel
  have hlift : PyM.lift (Sexp.parse 40 "((a (b)) c ())") World.empty =
      .ok (.ok (.ok mixedTree), World.empty) := PyM.lift_eq_ok.mpr ⟨_, hparse, rfl, rfl⟩
  refine ⟨40, PyM.map_eq_ok.mpr ⟨0, ?_, rfl⟩⟩
  rw [pyParse, parseSource, PyM.bind_of_ok hlift]
  rfl

/-- The events of the run `t = parse("((a (b)) c ())")`. -/
def eventsParsed : List ApiEvent :=
  [⟨World.empty, ⟨.parse (.str "((a (b)) c ())"), .ok (.sexp 0)⟩, parsedMixed⟩]

/-- The run `t = parse("((a (b)) c ())")`. -/
theorem run_parsed : ApiRun eventsParsed parsedMixed := Run.nil.cons step_parsedMixed

/-- **Conditions along the run**: it attaches nothing. -/
theorem eventsParsed_attachesOnly (P : Tree → NodeId → Attachment → NodeId → Prop) :
    ∀ e ∈ eventsParsed, e.label.call.AttachesOnly P e.before :=
  List.forall_mem_singleton.mpr (Call.attachesOnly_of_none fun _ _ _ _ hop => by cases hop)

/-- The tree of the run is small. -/
theorem eventsParsed_small : ∀ e ∈ eventsParsed, e.after.Small := by
  refine List.forall_mem_singleton.mpr (List.forall_mem_singleton.mpr ?_)
  simp [mixedTree]

end Sexp
