import Sexp.Reference.Refinement

/-! # Edits are local

A call that edits a tree changes what the nodes above the place of the edit show, and nothing else:
a subtree that a run of calls leaves alone (`World.Avoids`) keeps its nodes and its form, whatever
else happens to the tree in between (`avoided_keeps_form`). -/

namespace Sexp

open Library (OrderedForest Run Event Form Answers)
open Reference (Content Document)

variable {w w₀ w' : World} {c : Call} {r : Except PyErr Value} {self : HandleRef} {h : Handle}
  {tree tree' : Tree} {n : NodeId} {form : Form String} {fuel t : ℕ}
  {earlier later : List ApiEvent}

/-- Another content at a node changes no form of a node that is not above it. -/
theorem Document.form_put {ι : Type} [Finite ι] [DecidableEq ι] {d : Document ι} {x m : ι}
    {content : Content} (hx : x ∉ d.forest.subtree m) : (d.put x content).form m = d.form m := by
  refine OrderedForest.value_congr fun k hk => ⟨?_, rfl⟩
  have hne : k ≠ x := fun heq => hx (heq ▸ hk)
  simp [Document.put, OrderedForest.setLabel, hne]

/-- Whether a call may change a node of its receiver's tree. -/
def Call.rewrites : Call → Bool
  | .setValue _ _ => true
  | c => c.bumps

/-- **A call leaves the subtree of a node alone**, in the tree `t`: its receiver, if it edits, is
not in the subtree, nor does it attach a node that has been a child there; and it removes nothing
that the node is below. -/
structure World.Avoids (w : World) (c : Call) (t : ℕ) (n : NodeId) : Prop where
  /-- It edits no node of the subtree. -/
  edits : ∀ self h tree, c.self? = some self → w.Receives self h tree → h.tree = t →
    c.rewrites = true → ¬ tree.AncestorOrSelf n h.node
  /-- It takes no child out of the subtree. -/
  takes : ∀ self h tree op child p, c.self? = some self → w.Receives self h tree → h.tree = t →
    w.Attaching h tree c op child → tree.parentOf child = some p → ¬ tree.AncestorOrSelf n p
  /-- It removes nothing that the node is below. -/
  removes : ∀ self h tree, c.self? = some self → w.Receives self h tree → h.tree = t →
    c.removes = true → ¬ tree.AncestorOrSelf h.node n

section Writes

variable (hwrite : w.Writes fuel h tree c tree') (hwf : tree.WellFormed)
  (hself : c.self? = some self) (hrec : w.Receives self h tree) (havoids : w.Avoids c h.tree n)
  (hn : tree.Live n)

include hwrite hwf hself hrec havoids hn

/-- A write keeps a node that is not below what it removes. -/
theorem World.Writes.live_of_avoids : tree'.Live n := by
  cases hremoves : c.removes with
  | false =>
      obtain ⟨m, hm⟩ := Option.isSome_iff_exists.mp hn
      obtain ⟨m', hm', -⟩ := hwrite.kind hwf.slab hremoves hm
      rw [Tree.Live, hm']
      rfl
  | true =>
      obtain ⟨tree₁, hremove, rfl⟩ := hwrite.of_removes hremoves
      obtain ⟨-, -, hlive⟩ := remove_deleted hwf.toConsistent hremove
      exact (hlive n).mpr ⟨hn, havoids.removes self h tree hself hrec rfl hremoves⟩

/-- **A write keeps the form of a node whose subtree it leaves alone.** -/
theorem World.Writes.form_of_avoids (hwf' : tree'.WellFormed) (hsane : c.AttachesSane w)
    (hfits : tree'.nodes.slots.length ≤ 2 ^ 32) :
    tree'.document.form n = tree.document.form n := by
  have hedits : c.rewrites = true → h.node ∉ tree.document.forest.subtree n := fun hrewrites => by
    rw [hwf.document_subtree]
    exact havoids.edits self h tree hself hrec rfl hrewrites
  have hroot := hwrite.root_eq
  have hbare := hwrite.bare_eq
  cases hwrite with
  | @cache _ text htext =>
      have hsame : (tree.setReprCache h.node text).document = tree.document :=
        hwf.document_congr rfl rfl rfl
      rw [hsame]
  | @value _ value m hm hatom =>
      have hlive : tree.Live h.node := by rw [Tree.Live, hm]; rfl
      rw [(hwf.document_withValue hlive value).2, Document.form_put (hedits rfl)]
  | @alloc _ id kind _ hc halloc =>
      obtain ⟨hnew, hdocument⟩ := halloc.document hwf hfits
      -- what is below a live node is live, and the new node has not been
      have hid : id ∉ tree.document.forest.subtree n := fun hmem =>
        hnew (OrderedForest.live_of_mem_subtree (hwf.live_document.mpr hn) hmem)
      rw [hdocument, Document.form_put hid]
  | @attach _ op child _ hop hrun =>
      obtain ⟨-, hbelow, hfit⟩ := hsane self h tree op child hself hrec hop
      obtain ⟨-, hmoved⟩ := Attachment.run_moved hwf.toConsistent hbelow hfit hrun
      have hrewrites : c.rewrites = true := by cases hop <;> rfl
      refine (hmoved.document hwf hwf' hroot hbare).forest.value_eq (hedits hrewrites)
        fun q hq hmem => ?_
      rw [hwf.document_parent] at hq
      rw [hwf.document_subtree] at hmem
      exact havoids.takes self h tree op child q hself hrec rfl hop hq hmem
  | @remove _ tree₁ hremoves hne hremove =>
      obtain ⟨-, hdeleted, -⟩ := remove_deleted hwf.toConsistent hremove
      have hrewrites : c.rewrites = true := by cases c <;> first | rfl | cases hremoves
      have hdeletes : tree.document.Deletes tree₁.bumpVersion.document h.node :=
        Tree.Deleted.document hdeleted hwf hwf' hroot hbare
      refine hdeletes.forest.value_eq (hedits hrewrites) fun hmem => ?_
      rw [hwf.document_subtree] at hmem
      exact havoids.removes self h tree hself hrec rfl hremoves hmem

end Writes

/-- **A calm call keeps the form of a node whose subtree it leaves alone.** -/
theorem ApiEvent.Calm.denotes {l : CallResult} (hcalm : ApiEvent.Calm ⟨w, l, w'⟩)
    (hsound : w.Sound) (hstep : ApiStep w l w') (havoids : w.Avoids l.call t n)
    (hform : ∃ tree, w.trees[t]? = some tree ∧ tree.Denotes n form) :
    ∃ tree', w'.trees[t]? = some tree' ∧ tree'.Denotes n form := by
  obtain ⟨tree, ht, hdenotes⟩ := hform
  rcases hstep.cases with ⟨-, rfl⟩ | ⟨fuel, v, -, heffect⟩
  · exact ⟨tree, ht, hdenotes⟩
  obtain ⟨tree', ht', rfl | ⟨self, h, hself, hrec, rfl, hwrite⟩⟩ := heffect.tree_step ht
  · exact ⟨_, ht', hdenotes⟩
  have hwf := hsound.wellFormed tree (List.mem_of_getElem? ht)
  have hwf' := (hcalm.sound hsound heffect).wellFormed tree' (List.mem_of_getElem? ht')
  have hlive := hwrite.live_of_avoids hwf hself hrec havoids hdenotes.live
  have hform := hwrite.form_of_avoids hwf hself hrec havoids hdenotes.live hwf' hcalm.attaches
    (hcalm.small tree' (List.mem_of_getElem? ht'))
  refine ⟨tree', ht', ?_⟩
  rw [hdenotes.unique (hwf.document_denotes hdenotes.live), ← hform]
  exact hwf'.document_denotes hlive

/-- **A subtree that is left alone keeps its form**: when a node shows a form at some point of a
calm run, and every later call leaves its subtree alone, whatever else these calls do, it shows the
form at the end. -/
theorem avoided_keeps_form (hearlier : ApiRun earlier w₀) (hlater : Run ApiStep w₀ later w)
    (hcalm : ∀ e ∈ later ++ earlier, e.Calm)
    (havoids : ∀ e ∈ later, e.before.Avoids e.label.call t n)
    (hform : ∃ tree, w₀.trees[t]? = some tree ∧ tree.Denotes n form) :
    ∃ tree, w.trees[t]? = some tree ∧ tree.Denotes n form := by
  have hbefore : ∀ e ∈ later ++ earlier, e.before.Sound := by
    intro e he
    refine ((hearlier.trans hlater).invariant_around World.sound_empty
      (fun e he hsound hstep => ?_) e he).1
    rcases ApiStep.cases hstep with ⟨-, heq⟩ | ⟨fuel, v, -, heffect⟩
    · rwa [heq]
    · exact (hcalm e he).sound hsound heffect
  refine hlater.invariant (P := fun w => ∃ tree, w.trees[t]? = some tree ∧ tree.Denotes n form)
    hform fun e he hform hstep => ?_
  have hmem := List.mem_append_left earlier he
  exact ApiEvent.Calm.denotes (hcalm e hmem) (hbefore e hmem) hstep (havoids e he) hform

/-- `t.append(l)` leaves the subtree of `l` alone. -/
theorem avoids_append : twoLists.Avoids (.append 0 1) 0 ⟨1⟩ where
  edits := by
    rintro _ h tree ⟨⟩ hrec - -
    obtain ⟨rfl⟩ : some _ = some h := hrec.handle_eq
    obtain ⟨rfl⟩ : some _ = some tree := hrec.tree_eq
    exact Tree.not_ancestorOrSelf (by decide) rfl
  takes := by
    rintro _ h tree op child p ⟨⟩ hrec - hop hp
    obtain ⟨rfl⟩ : some _ = some h := hrec.handle_eq
    obtain ⟨rfl⟩ : some _ = some tree := hrec.tree_eq
    cases hop with
    | append hchild hsame =>
        cases hchild
        cases hp
  removes := nofun

/-- `avoided_keeps_form` at the list `l` and the call `t.append(l)`. -/
theorem avoided_keeps_form_nested :
    ∃ tree, nested.trees[0]? = some tree ∧ tree.Denotes ⟨1⟩ (.list []) := by
  refine avoided_keeps_form run_twoLists (.cons .nil step_nested) eventsNested_calm
    (List.forall_mem_singleton.mpr avoids_append) ⟨looseLists, rfl, ?_⟩
  have hnew : (Tree.fromRaw ⟨[some Node.newList], []⟩ ⟨0⟩).Allocated looseLists ⟨1⟩ .list :=
    ⟨rfl, rfl⟩
  obtain ⟨-, hF⟩ :=
    hnew.represents (represents_single .list) (wellFormed_single .list).slab (by decide)
  have hlabel : ((OrderedForest.empty.setLabel ⟨0⟩ NodeType.list).setLabel
      (⟨1⟩ : NodeId) NodeType.list).label ⟨1⟩ = some .list := by simp [OrderedForest.setLabel]
  refine ⟨_, .node ⟨1⟩ [], hF, by rw [hlabel]; rfl, .node rfl (by simp), rfl, ?_⟩
  rw [formOf_list hlabel, List.map_nil]

end Sexp
