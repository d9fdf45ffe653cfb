import Sexp.Py.NoPanic
import Sexp.Py.Views
import Sexp.Reference.Store

/-! # What the objects stand for

Every tree in memory stands for a document (`Tree.document`), and the objects that have been created
stand for a store (`World.store`): versions become validity, and the sibling that an iterator holds
becomes what is left of the child list.

Each way to change the objects is the one of the store: creating handles, iterators and trees,
writing a tree without bumping its version, and writing it with a bump. -/

namespace Sexp

open Library (OrderedForest Rose Spans Form)
open Reference (Content Document Ref Cursor Store Place)

/-! ## Trees -/

/-- What a node is, without its storage. -/
def NodeType.content : NodeType → Content
  | .atom value => .atom value.asStr
  | .list => .list

open Classical in
/-- **The document that a tree stands for.** A tree that is not well-formed stands for nothing; it
is given the document of a single list. -/
noncomputable def Tree.document (tree : Tree) : Document NodeId :=
  if h : tree.WellFormed then
    { forest := h.exists_represents.choose.mapLabel NodeType.content
      root := tree.root
      root_live := by
        rw [OrderedForest.label_mapLabel, Option.isSome_map]
        exact h.exists_represents.choose_spec.live_iff.mp h.root_live
      blank := tree.bare }
  else
    { forest := OrderedForest.empty.setLabel tree.root .list
      root := tree.root
      root_live := by simp [OrderedForest.setLabel]
      blank := tree.bare }

@[simp] theorem Tree.document_root (tree : Tree) : tree.document.root = tree.root := by
  unfold document
  split <;> rfl

@[simp] theorem Tree.document_blank (tree : Tree) : tree.document.blank = tree.bare := by
  unfold document
  split <;> rfl

namespace Tree.WellFormed

variable {tree : Tree} {F : OrderedForest NodeId NodeType} {id : NodeId} {n : Node}

/-- The forest of the document is the one that the links represent. -/
theorem document_forest (hwf : tree.WellFormed) (hF : tree.Represents F) :
    tree.document.forest = F.mapLabel NodeType.content := by
  have hdocument : tree.document.forest =
      hwf.exists_represents.choose.mapLabel NodeType.content := by
    rw [document, dif_pos hwf]
  rw [hdocument, hwf.exists_represents.choose_spec.unique hF]

/-- The live nodes of the document are the live nodes. -/
theorem live_document (hwf : tree.WellFormed) : tree.document.Live id ↔ tree.Live id := by
  obtain ⟨F, hF⟩ := hwf.exists_represents
  rw [Document.Live, hwf.document_forest hF, OrderedForest.label_mapLabel, Option.isSome_map,
    hF.live_iff]

/-- The content of a live node. -/
theorem document_label (hwf : tree.WellFormed) (hn : tree.nodes.get id = some n) :
    tree.document.forest.label id = some n.kind.content := by
  obtain ⟨F, hF⟩ := hwf.exists_represents
  rw [hwf.document_forest hF, OrderedForest.label_mapLabel, (hF.eq_nodeOf hn).1]
  rfl

/-- The parent of a node. -/
theorem document_parent (hwf : tree.WellFormed) (id : NodeId) :
    tree.document.forest.parent id = tree.parentOf id := by
  obtain ⟨F, hF⟩ := hwf.exists_represents
  rw [hwf.document_forest hF, hF.parentOf_eq]
  rfl

/-- The children of a live node. -/
theorem document_children (hwf : tree.WellFormed) (hn : tree.nodes.get id = some n) :
    tree.IsChildList id n (tree.document.forest.children id) := by
  obtain ⟨F, hF⟩ := hwf.exists_represents
  rw [hwf.document_forest hF]
  exact hF.isChildList hn

/-- The subtree of a node. -/
theorem document_subtree (hwf : tree.WellFormed) {m : NodeId} :
    m ∈ tree.document.forest.subtree id ↔ tree.AncestorOrSelf id m := by
  obtain ⟨F, hF⟩ := hwf.exists_represents
  rw [hwf.document_forest hF, hF.ancestorOrSelf_iff]
  rfl

/-- The text of an atom. -/
theorem document_atomText (hwf : tree.WellFormed) (hid : tree.Live id) :
    tree.document.atomText id = tree.atomText id := by
  obtain ⟨n, hn⟩ := Option.isSome_iff_exists.mp hid
  rw [Document.atomText, hwf.document_label hn, atomText, hn]
  rcases hkind : n.kind with value | _
  · simp [NodeType.content, Content.text, Node.atomValue, hkind]
  · simp [NodeType.content, Content.text, Node.atomValue, hkind]

/-- The next sibling of a live node, and what is behind it. -/
theorem document_onward (hwf : tree.WellFormed) (hn : tree.nodes.get id = some n) :
    ∃ ys, tree.document.forest.onward id = id :: ys ∧ ys.head? = n.nextSibling ∧
      ∀ d, ys.head? = some d → tree.document.forest.onward d = ys := by
  obtain ⟨F, hF⟩ := hwf.exists_represents
  rw [hwf.document_forest hF]
  obtain ⟨ys, honward, hhead, hrest⟩ := (F.mapLabel NodeType.content).onward_eq_cons id
  refine ⟨ys, honward, ?_, hrest⟩
  rw [hhead, (hF.eq_nodeOf hn).2]
  rfl

end Tree.WellFormed

/-! ## Forms -/

/-- The form of a rose tree is made of its contents. -/
theorem formOf_eq_fold {label : NodeId → Option NodeType} (r : Rose NodeId) :
    formOf label r = r.fold fun n => Reference.formAt ((label n).map NodeType.content) := by
  cases r with
  | node n ks =>
      have hks : ks.map (formOf label) =
          ks.map (Rose.fold fun n => Reference.formAt ((label n).map NodeType.content)) :=
        List.map_congr_left fun k _ => formOf_eq_fold k
      rw [Rose.fold_node, ← hks, formOf, formsOf_eq_map]
      rcases label n with _ | value | _
      · rfl
      · rfl
      · rfl

namespace Tree.WellFormed

variable {tree : Tree} {F : OrderedForest NodeId NodeType} {id : NodeId}

/-- **The form of a live node** is the one that it denotes. -/
theorem document_denotes (hwf : tree.WellFormed) (hid : tree.Live id) :
    tree.Denotes id (tree.document.form id) := by
  obtain ⟨F, hF⟩ := hwf.exists_represents
  obtain ⟨r, hroot, hr⟩ := F.exists_spans id
  refine ⟨F, r, hF, hF.live_iff.mp hid, hr, hroot, ?_⟩
  subst hroot
  have hspans : Spans (F.mapLabel NodeType.content).children r := hr
  rw [Document.form, hwf.document_forest hF, OrderedForest.value_of_spans hspans, formOf_eq_fold]
  rfl

/-- The contents below a node. -/
theorem document_contents (hwf : tree.WellFormed) (hF : tree.Represents F) {r : Rose NodeId}
    (hr : Spans F.children r) : tree.document.contents r.root =
      (r.map F.label).map (Option.map NodeType.content) := by
  have hspans : Spans (F.mapLabel NodeType.content).children r := hr
  rw [Document.contents, hwf.document_forest hF, OrderedForest.value_node_of_spans hspans,
    Rose.map_map]
  rfl

end Tree.WellFormed

/-- The document depends on the nodes, the root and the flag of a bare tree only. -/
theorem Tree.WellFormed.document_congr {tree tree' : Tree} (hwf : tree.WellFormed)
    (hnodes : tree'.nodes = tree.nodes) (hroot : tree'.root = tree.root)
    (hbare : tree'.bare = tree.bare) : tree'.document = tree.document := by
  obtain ⟨F, hF⟩ := hwf.exists_represents
  have hF' : tree'.Represents F := by
    intro id
    rw [hnodes]
    exact hF id
  have hwf' : tree'.WellFormed :=
    { hF'.consistent (hnodes ▸ hwf.slab) with
      root_live := by
        rw [Tree.Live, hnodes, hroot]
        exact hwf.root_live }
  have hforest := (hwf'.document_forest hF').trans (hwf.document_forest hF).symm
  exact Document.ext hforest (by simp [hroot]) (by simp [hbare])

/-! ## Handles and iterators -/

/-- What a handle refers to, among these trees. -/
def Handle.ref (trees : List Tree) (h : Handle) : Ref NodeId :=
  ⟨h.tree, h.node, (trees[h.tree]?).any fun tree => !h.isStale tree⟩

/-- What is left of the nodes that an iterator goes over, among these trees. -/
noncomputable def SExpIter.cursor (trees : List Tree) (it : SExpIter) : Cursor NodeId :=
  ⟨it.tree,
    match it.next with
    | none => some []
    | some c => (trees[it.tree]?).bind fun tree =>
        if tree.version = it.version then some (tree.document.forest.onward c) else none⟩

/-- **The store that the objects stand for.** -/
noncomputable def World.store (w : World) : Store NodeId where
  docs := w.trees.map Tree.document
  refs := w.handles.map (Handle.ref w.trees)
  cursors := w.iters.map (SExpIter.cursor w.trees)

variable {w : World} {self : HandleRef} {h : Handle} {it : SExpIter} {tree tree' : Tree}
  {trees : List Tree}

@[simp] theorem World.length_refs_store : w.store.refs.length = w.handles.length :=
  List.length_map ..

@[simp] theorem World.length_cursors_store : w.store.cursors.length = w.iters.length :=
  List.length_map ..

/-- A handle at the version of its tree refers to its node validly. -/
theorem Handle.ref_of_version (ht : trees[h.tree]? = some tree)
    (hversion : h.version = tree.version) : h.ref trees = ⟨h.tree, h.node, true⟩ := by
  simp [ref, ht, isStale, hversion]

/-- Looking up a reference. -/
theorem World.store_refs_of_handle {ref : HandleRef} (hh : w.handles[ref]? = some h) :
    w.store.refs[ref]? = some (h.ref w.trees) := by
  simp [store, hh]

/-- Looking up a document. -/
theorem World.store_docs_of_tree {t : ℕ} (ht : w.trees[t]? = some tree) :
    w.store.docs[t]? = some tree.document := by
  simp [store, ht]

/-! ## Creating objects -/

namespace World

/-- **Creating handles** to nodes of a tree is pointing at them. -/
theorem store_handles {t : ℕ} (ht : w.trees[t]? = some tree) (nodes : List NodeId) :
    (w.extend (nodes.map fun x => ⟨t, x, tree.version⟩) []).store = w.store.pointing t nodes := by
  have hrefs : ∀ x, Handle.ref w.trees ⟨t, x, tree.version⟩ = ⟨t, x, true⟩ := fun x =>
    Handle.ref_of_version (h := ⟨t, x, tree.version⟩) ht rfl
  simp [store, extend, Store.pointing, Function.comp_def, hrefs]

/-- Creating a handle to a node of a tree is pointing at it. -/
theorem store_handle {t : ℕ} (ht : w.trees[t]? = some tree) (x : NodeId) :
    (w.extend [⟨t, x, tree.version⟩] []).store = w.store.pointing t [x] :=
  store_handles ht [x]

/-- **Creating an iterator** is creating a cursor, over all that follows the node that it holds. -/
theorem store_iter {t : ℕ} (ht : w.trees[t]? = some tree) {l : List NodeId}
    (hl : ∀ c, l.head? = some c → tree.document.forest.onward c = l) :
    (w.extend [] [⟨t, l.head?, tree.version⟩]).store =
      { w.store with cursors := w.store.cursors ++ [⟨t, some l⟩] } := by
  have hcursor : SExpIter.cursor w.trees ⟨t, l.head?, tree.version⟩ = ⟨t, some l⟩ := by
    rcases l with _ | ⟨c, l⟩
    · rfl
    · simp [SExpIter.cursor, ht, hl c rfl]
  simp [store, extend, hcursor]

/-- A handle to one of the trees does not depend on the trees behind them. -/
theorem ref_append (ht : h.tree < trees.length) (tree : Tree) :
    h.ref (trees ++ [tree]) = h.ref trees := by
  simp [Handle.ref, List.getElem?_append_left ht]

/-- An iterator over one of the trees does not depend on the trees behind them. -/
theorem cursor_append (ht : ∀ x, it.next = some x → it.tree < trees.length) (tree : Tree) :
    it.cursor (trees ++ [tree]) = it.cursor trees := by
  rcases hnext : it.next with _ | x
  · simp [SExpIter.cursor, hnext]
  · simp [SExpIter.cursor, hnext, List.getElem?_append_left (ht x hnext)]

/-- **Creating a tree** is creating its document. -/
theorem store_push (hsnap : w.Snapshots) (tree : Tree) :
    (w.push tree).store = w.store.push tree.document := by
  have hrefs : w.handles.map (Handle.ref (w.trees ++ [tree])) =
      w.handles.map (Handle.ref w.trees) :=
    List.map_congr_left fun h hh => ref_append (by
      obtain ⟨_, ht, -⟩ := hsnap.handles h hh
      exact (List.getElem?_eq_some_iff.mp ht).1) tree
  have hcursors : w.iters.map (SExpIter.cursor (w.trees ++ [tree])) =
      w.iters.map (SExpIter.cursor w.trees) :=
    List.map_congr_left fun it hit => cursor_append (fun x hx => by
      obtain ⟨_, ht, -⟩ := hsnap.iters it hit x hx
      exact (List.getElem?_eq_some_iff.mp ht).1) tree
  have hroot : Handle.ref (w.trees ++ [tree]) ⟨w.trees.length, tree.root, tree.version⟩ =
      ⟨w.trees.length, tree.root, true⟩ :=
    Handle.ref_of_version (h := ⟨w.trees.length, tree.root, tree.version⟩)
      (List.getElem?_concat_length : (w.trees ++ [tree])[w.trees.length]? = some tree) rfl
  simp [store, push, Store.push, hrefs, hcursors, hroot]

/-! ## Writing a tree -/

/-- The reference that a handle becomes is the one of the handle, unless its tree is written. -/
theorem ref_set_of_ne {t : ℕ} (ht : h.tree ≠ t) (tree : Tree) :
    h.ref (trees.set t tree) = h.ref trees := by
  simp [Handle.ref, List.getElem?_set_ne (Ne.symm ht)]

/-- The cursor that an iterator becomes is the one of the iterator, unless its tree is written. -/
theorem cursor_set_of_ne {t : ℕ} (ht : it.tree ≠ t) (tree : Tree) :
    it.cursor (trees.set t tree) = it.cursor trees := by
  simp [SExpIter.cursor, List.getElem?_set_ne (Ne.symm ht)]

/-- What a handle refers to in a tree. -/
theorem ref_eq (ht : trees[h.tree]? = some tree) :
    h.ref trees = ⟨h.tree, h.node, !h.isStale tree⟩ := by
  simp [Handle.ref, ht]

/-- What is left of an iterator over a tree. -/
theorem cursor_eq (ht : trees[it.tree]? = some tree) {c : NodeId} (hnext : it.next = some c) :
    it.cursor trees = ⟨it.tree,
      if tree.version = it.version then some (tree.document.forest.onward c) else none⟩ := by
  simp [SExpIter.cursor, ht, hnext]

/-- **Writing a tree without bumping its version** is writing its document. -/
theorem store_refreshed_quiet (hrec : w.Receives self h tree)
    (hversion : tree'.version = tree.version) (hroot : tree'.root = tree.root)
    (honward : ∀ c, tree'.document.forest.onward c = tree.document.forest.onward c) :
    (w.refreshed self h tree').store = w.store.setDoc h.tree tree'.document := by
  have hlt := (List.getElem?_eq_some_iff.mp hrec.tree_eq).1
  have htree' : (w.trees.set h.tree tree')[h.tree]? = some tree' := List.getElem?_set_self hlt
  -- every handle refers to what it has referred to
  have href : ∀ k : Handle, k.ref (w.trees.set h.tree tree') = k.ref w.trees := by
    intro k
    by_cases hk : k.tree = h.tree
    · rw [ref_eq (by rwa [hk]), ref_eq (by rw [hk]; exact hrec.tree_eq)]
      simp [Handle.isStale, hversion, hroot]
    · exact ref_set_of_ne hk tree'
  have hcursor : ∀ it : SExpIter, it.cursor (w.trees.set h.tree tree') = it.cursor w.trees := by
    intro it
    by_cases hit : it.tree = h.tree
    · rcases hnext : it.next with _ | c
      · simp [SExpIter.cursor, hnext]
      · rw [cursor_eq (by rwa [hit]) hnext, cursor_eq (by rw [hit]; exact hrec.tree_eq) hnext,
          hversion, honward]
    · exact cursor_set_of_ne hit tree'
  -- and so does the receiver, which is refreshed
  have hself : ∀ handles : List Handle, handles[self]? = some h →
      (handles.set self { h with version := tree'.version }).map (Handle.ref w.trees) =
        handles.map (Handle.ref w.trees) := by
    intro handles hh
    have hfresh : Handle.ref w.trees { h with version := tree'.version } = h.ref w.trees := by
      rw [ref_eq hrec.tree_eq, hrec.fresh]
      exact Handle.ref_of_version (h := { h with version := tree'.version }) hrec.tree_eq hversion
    rw [List.map_set, hfresh, ← List.map_set]
    obtain ⟨hlt, rfl⟩ := List.getElem?_eq_some_iff.mp hh
    rw [List.set_getElem_self]
  simp only [store, refreshed, Store.setDoc, List.map_set, funext href, funext hcursor]
  congr 1
  split
  · exact hself _ hrec.handle_eq
  · rfl

/-- What a handle with an older version refers to when its tree has been written: only the root. -/
theorem ref_of_lt (ht : trees[h.tree]? = some tree) (hlt : h.version < tree.version) :
    h.ref trees = ⟨h.tree, h.node, h.node = tree.root⟩ := by
  have hne : h.version ≠ tree.version := UInt64.ne_of_lt hlt
  rw [ref_eq ht]
  by_cases hroot : h.node = tree.root
  · simp [Handle.isStale, hroot]
  · simp [Handle.isStale, hroot, hne]

/-- What is left of an iterator with an older version when its tree has been written: nothing, or it
is not known. -/
theorem cursor_of_lt (ht : trees[it.tree]? = some tree)
    (hlt : ∀ x, it.next = some x → it.version < tree.version) :
    it.cursor trees = ⟨it.tree, if it.next.isNone then some [] else none⟩ := by
  rcases hnext : it.next with _ | c
  · simp [SExpIter.cursor, hnext]
  · have hne : tree.version ≠ it.version := Ne.symm (UInt64.ne_of_lt (hlt c hnext))
    rw [cursor_eq ht hnext, if_neg hne]
    rfl

/-- The other handles stay. -/
theorem handles_refreshed_of_ne {i : HandleRef} (hi : i ≠ self) :
    (w.refreshed self h tree').handles[i]? = w.handles[i]? := by
  unfold refreshed
  dsimp only
  split
  · exact List.getElem?_set_ne (Ne.symm hi)
  · rfl

section Bump

variable (hsnap : w.Snapshots) (hrec : w.Receives self h tree) (hwf : tree'.WellFormed)
  (hnewer : tree.version < tree'.version)

include hsnap hrec hnewer

/-- The handles of the tree are behind its new version. -/
theorem version_lt_of_bump {k : Handle} (hk : k ∈ w.handles) (hsame : k.tree = h.tree) :
    k.version < tree'.version := by
  obtain ⟨t, ht, hle, -⟩ := hsnap.handles k hk
  rw [hsame, hrec.tree_eq] at ht
  cases ht
  exact UInt64.lt_of_le_of_lt hle hnewer

include hwf in
/-- What the handles of the tree refer to after the bump. -/
theorem ref_refreshed_bump {i : HandleRef} {k : Handle} (hk : w.handles[i]? = some k)
    (hsame : k.tree = h.tree) :
    (w.refreshed self h tree').handles[i]?.map (Handle.ref (w.trees.set h.tree tree')) =
      some ⟨k.tree, k.node,
        k.node = tree'.root || i = self && (tree'.document.forest.label k.node).isSome⟩ := by
  have htree' : (w.trees.set h.tree tree')[h.tree]? = some tree' :=
    List.getElem?_set_self (List.getElem?_eq_some_iff.mp hrec.tree_eq).1
  have hold := ref_of_lt (by rwa [hsame])
    (version_lt_of_bump hsnap hrec hnewer (List.mem_of_getElem? hk) hsame)
  by_cases hi : i = self
  · subst hi
    obtain rfl := Option.some.inj (hk.symm.trans hrec.handle_eq)
    have hlive : (tree'.document.forest.label k.node).isSome = tree'.containsNode k.node := by
      rw [Bool.eq_iff_iff]
      exact hwf.live_document
    rw [World.handle_refreshed hk, hlive, Option.map_some]
    by_cases hcontains : tree'.containsNode k.node = true
    · rw [if_pos hcontains, hcontains]
      simpa using Handle.ref_of_version (h := { k with version := tree'.version }) htree' rfl
    · rw [if_neg hcontains, hold]
      simp [hcontains]
  · rw [handles_refreshed_of_ne hi, hk, Option.map_some, hold]
    simp [hi]

/-- What is left of the iterators over the tree after the bump. -/
theorem cursor_bump {k : SExpIter} (hk : k ∈ w.iters) (hsame : k.tree = h.tree) :
    k.cursor (w.trees.set h.tree tree') =
      { k.cursor w.trees with rest := (k.cursor w.trees).rest.filter List.isEmpty } := by
  have htree' : (w.trees.set h.tree tree')[h.tree]? = some tree' :=
    List.getElem?_set_self (List.getElem?_eq_some_iff.mp hrec.tree_eq).1
  rw [cursor_of_lt (by rwa [hsame]) fun x hx => by
    obtain ⟨t, ht, hle, -⟩ := hsnap.iters k hk x hx
    rw [hsame, hrec.tree_eq] at ht
    cases ht
    exact UInt64.lt_of_le_of_lt hle hnewer]
  rcases hnext : k.next with _ | c
  · simp [SExpIter.cursor, hnext, Option.filter]
  · obtain ⟨ys, honward, -⟩ := tree.document.forest.onward_eq_cons c
    rw [cursor_eq (by rw [hsame]; exact hrec.tree_eq) hnext, honward]
    by_cases hversion : tree.version = k.version
    · simp [hversion, Option.filter]
    · simp [hversion]

include hwf in
/-- **Writing a tree and bumping its version** is giving its document another structure. -/
theorem store_refreshed_bump :
    (w.refreshed self h tree').store = w.store.restructure self h.tree tree'.document := by
  have hrefs : (w.refreshed self h tree').store.refs =
      (w.store.restructure self h.tree tree'.document).refs := by
    refine List.ext_getElem? fun i => ?_
    simp only [store, Store.restructure, List.getElem?_map, List.getElem?_mapIdx]
    rcases hk : w.handles[i]? with _ | k
    · rw [List.getElem?_eq_none_iff] at hk
      rw [List.getElem?_eq_none (by rwa [length_handles_refreshed])]
      rfl
    · by_cases hsame : k.tree = h.tree
      · refine (ref_refreshed_bump hsnap hrec hwf hnewer hk hsame).trans ?_
        simp [Handle.ref, hsame]
      · -- a handle of another tree is not the receiver
        have hi : i ≠ self := by
          rintro rfl
          exact hsame (congrArg Handle.tree (Option.some.inj (hk.symm.trans hrec.handle_eq)))
        rw [handles_refreshed_of_ne hi, hk]
        refine (congrArg some (ref_set_of_ne hsame tree')).trans ?_
        simp [Handle.ref, hsame]
  have hcursors : (w.refreshed self h tree').store.cursors =
      (w.store.restructure self h.tree tree'.document).cursors := by
    simp only [store, Store.restructure, List.map_map]
    refine List.map_congr_left fun k hk => ?_
    by_cases hsame : k.tree = h.tree
    · refine (cursor_bump hsnap hrec hnewer hk hsame).trans ?_
      simp [SExpIter.cursor, hsame]
    · refine (cursor_set_of_ne hsame tree').trans ?_
      simp [SExpIter.cursor, hsame]
  have hdocs : (w.refreshed self h tree').store.docs =
      (w.store.restructure self h.tree tree'.document).docs := List.map_set
  rw [Store.mk.injEq]
  exact ⟨hdocs, hrefs, hcursors⟩

end Bump

end World

end Sexp
