import Sexp.Reference.Writes

/-! # Calls that create documents

`SExp()`, `parse`, `clone` and `extract` create a tree, as the reference store creates a document:
with the nodes of a form, or of a subtree. -/

namespace Sexp

open Library (Answers Form OrderedForest)
open Reference (Content Document Store Request Place contentsOf readText readSource)

variable {w w' : World} {self : HandleRef} {h : Handle} {tree tree' copy : Tree} {c : Call}
  {r : Except PyErr Value} {e : PyErr} {fuel : ℕ}

/-- Creating a tree from the nodes of a request. -/
theorem World.Snapshots.store_create {nodes : Library.Rose (Option Content)} {blank : Bool}
    (hsnap : w.Snapshots) (hholds : tree.document.Holds nodes blank)
    (hplan : w.store.plan c = .ok (.create nodes blank)) :
    w.store.Step ⟨c, .ok (.sexp w.handles.length)⟩ (w.push tree).store := by
  rw [World.store_push hsnap]
  have hperform := Store.Step.perform hplan (.create hholds)
  rwa [Store.value, World.length_refs_store] at hperform

/-- `SExp()`. -/
theorem new_follows (hsnap : w.Snapshots) : w.Follows .new :=
  ⟨_, w.push (Tree.fromRaw ⟨[some (Node.unlinked .list)], []⟩ ⟨0⟩), .const fun _ => rfl,
    hsnap.store_create single_holds rfl⟩

/-! ## Parsing -/

/-- The tree of a text with one form has a slot for each node of the form. -/
theorem parse_single {s : String} {form : Form String} (hs : tokensOf s = form.tokens) :
    ∃ tree, Answers (fun fuel => parse fuel s) (.ok tree) ∧ tree.reprCache = none ∧
      tree.nodes.slots.length = form.size := by
  have hforms : tokensOf s = Form.tokensAll [form] := by simpa using hs
  obtain ⟨building, hrun, hopen, hlength⟩ := run_topLevel hforms
  obtain ⟨root, htop⟩ := List.length_eq_one_iff.mp hlength
  refine ⟨Tree.fromRaw building.nodes root, parse_answers_ok hrun ?_, rfl, ?_⟩
  · rw [Building.finish, hopen, htop]
    rfl
  · rw [Tree.fromRaw, (Building.run_dense hrun).2, hforms, Library.nodeCount_tokensAll]
    simp

/-- **`parse` reads a text**: it answers what the text says, and the tree of a form holds the nodes
of the form. -/
theorem parse_reads (s : String) : ∃ result, Answers (fun fuel => parse fuel s) result ∧
    (∀ error, result = .error error → readText s = .error (rustParseError error)) ∧
    ∀ tree, result = .ok tree → tree.nodes.slots.length ≤ 2 ^ 32 →
      (readText s = .ok none ∧ tree.document.Holds (.node (some .list) []) true) ∨
      ∃ form, readText s = .ok (some form) ∧ tree.document.Holds (contentsOf form) false := by
  rcases shape (tokensOf s) with hstray | ⟨hstray, hdepth⟩ | ⟨forms, hforms⟩
  · refine ⟨_, parse_stray hstray, ?_, nofun⟩
    rintro error ⟨⟩
    rw [Library.noStray_iff, not_not] at hstray
    rw [readText, hstray]
    rfl
  · refine ⟨_, parse_unclosed hstray hdepth, ?_, nofun⟩
    rintro error ⟨⟩
    obtain ⟨⟨current, outer⟩, hread⟩ :=
      Option.ne_none_iff_exists'.mp (Library.noStray_iff.mp hstray)
    have hlength := Library.length_of_read hread
    -- as many lists are open as the depth says
    rcases outer with _ | ⟨forms, outer⟩
    · simp at hlength
      omega
    · rw [readText, hread]
      rfl
  · have hread := Library.read_tokensAll_eq forms
    rw [← hforms] at hread
    rcases forms with _ | ⟨form, _ | ⟨form', forms⟩⟩
    · obtain ⟨tree, hbare⟩ : ∃ tree, Tree.newBare = .ok tree := ⟨_, rfl⟩
      refine ⟨_, parse_empty (by simpa using hforms) hbare, nofun, ?_⟩
      rintro _ ⟨⟩ -
      refine .inl ⟨?_, newBare_holds hbare⟩
      rw [readText, hread]
      rfl
    · have hs : tokensOf s = form.tokens := by simpa using hforms
      obtain ⟨tree, hanswers, hcache, hslots⟩ := parse_single hs
      refine ⟨_, hanswers, nofun, ?_⟩
      rintro _ ⟨⟩ hfits
      obtain ⟨tree', hanswers', hspells⟩ := parse_form hs (hslots ▸ hfits)
      obtain rfl : tree = tree' := by simpa using hanswers.unique hanswers'
      refine .inr ⟨form, ?_, hspells.holds hcache⟩
      rw [readText, hread]
      rfl
    · refine ⟨_, parse_multiple hforms (by simp), ?_, nofun⟩
      rintro error ⟨⟩
      have hlength : (form :: form' :: forms).reverse.length = forms.length + 2 := by simp
      rw [readText, hread]
      rcases hrev : (form :: form' :: forms).reverse with _ | ⟨_, _ | ⟨_, _⟩⟩
      · simp [hrev] at hlength
      · simp [hrev] at hlength
      · rfl

/-- `parse` of an argument with a text. -/
theorem parse_text_step {source : PySource} {s : String} (hsnap : w.Snapshots)
    (hstep : ApiStep w ⟨.parse source, r⟩ w') (hsmall : w'.Small)
    (hsource : readSource source = readText s)
    (hparse : ∀ fuel, parseSource fuel source = PyM.lift (parse fuel s)) :
    w.store.Step ⟨.parse source, r⟩ w'.store := by
  obtain ⟨result, hanswers, herror, htree⟩ := parse_reads s
  rcases result with error | tree
  · have hraises : Answers (fun fuel => pyParse fuel source w)
        (.error (rustParseError error), w) := by
      simp only [pyParse, hparse]
      exact .bind (.bind hanswers (.const fun _ => rfl)) (.const fun _ => rfl)
    refine hstep.store_step (.refuse (PyM.map_answers hraises _) ?_)
    rw [Store.plan, hsource, herror error rfl]
    rfl
  · have hreturns : Answers (fun fuel => pyParse fuel source w)
        (.ok w.handles.length, w.push tree) := by
      simp only [pyParse, hparse]
      exact .bind (.bind hanswers (.const fun _ => rfl)) (.const fun _ => rfl)
    obtain ⟨rfl, rfl⟩ := hstep.eq_of_answers (PyM.map_answers hreturns Value.sexp)
    have hfits := hsmall tree (List.mem_of_getElem? (World.trees_push w tree))
    rcases htree tree rfl hfits with ⟨hread, hholds⟩ | ⟨form, hread, hholds⟩
    · refine hsnap.store_create hholds ?_
      rw [Store.plan, hsource, hread]
      rfl
    · refine hsnap.store_create hholds ?_
      rw [Store.plan, hsource, hread]
      rfl

/-- `parse`. -/
theorem parse_step {source : PySource} (hsnap : w.Snapshots)
    (hstep : ApiStep w ⟨.parse source, r⟩ w') (hsmall : w'.Small) :
    w.store.Step ⟨.parse source, r⟩ w'.store := by
  cases source with
  | str s => exact parse_text_step hsnap hstep hsmall rfl fun _ => rfl
  | bytes b =>
      rcases hutf8 : String.fromUTF8? b with _ | s
      · refine hstep.store_step (.refuse (e := rustParseError .invalidUtf8) ?_ ?_)
        · refine PyM.map_answers (r := .error _) (.const fun fuel => ?_) Value.sexp
          rw [pyParse, parseSource, parseBytes, hutf8]
          rfl
        · rw [Store.plan, readSource, hutf8]
          rfl
      · refine parse_text_step (s := s) hsnap hstep hsmall ?_ fun fuel => ?_
        · rw [readSource, hutf8]
        · rw [parseSource, parseBytes, hutf8]
  | object => exact hstep.store_step (.refuse (.const fun _ => rfl) rfl)

/-! ## Copying a subtree -/

/-- **The copy of a node other than the root** holds the nodes of its subtree, of which an atom is
copied without what hangs below it. -/
theorem cloneSubtree_holds (hwf : tree.WellFormed) (hn : tree.Live h.node)
    (hne : h.node ≠ tree.root) :
    ∃ copy, Answers (fun fuel => cloneSubtree fuel tree h.node) copy ∧
      copy.document.Holds (Reference.copied (tree.document.contents h.node)) false := by
  obtain ⟨F, hF⟩ := hwf.exists_represents
  obtain ⟨r, hroot, hr⟩ := F.exists_spans h.node
  rw [← hroot] at hn hne
  obtain ⟨copy, hclone, hcopy⟩ := cloneSubtree_answers hF hr hn hne
  rw [← hroot]
  refine ⟨copy, hclone, ?_⟩
  rw [← hwf.document_copied hF hr]
  exact hcopy.holds

/-- `clone`. -/
theorem clone_follows (hsound : w.Sound) (hrec : w.Receives self h tree) :
    w.Follows (.clone self) := by
  obtain ⟨hwf, -⟩ := hsound.receiver hrec
  have hcreates : ∀ copy, Answers (fun fuel => cloneSubtree fuel tree h.node) copy →
      Answers (fun fuel => call fuel (.clone self) w)
        (.ok (.sexp w.handles.length), w.push copy) := by
    intro copy hclone
    have hread : Answers (fun fuel => SExp.withTree self (fun tree node => do
        return (.ok (← cloneSubtree fuel tree node) : Except PyErr Tree)) w) (.ok copy, w) :=
      SExp.withTree_answers hrec (.bind hclone (.const fun _ => rfl))
    have hreturns : Answers (fun fuel => SExp.cloneNode fuel self w)
        (.ok w.handles.length, w.push copy) := .bind hread (.const fun _ => rfl)
    exact PyM.map_answers hreturns Value.sexp
  by_cases hroot : h.node = tree.root
  · have hself : Answers (fun fuel => cloneSubtree fuel tree h.node) tree :=
      .const fun fuel => by
        rw [cloneSubtree, if_pos hroot]
        rfl
    refine ⟨_, _, hcreates tree hself, ?_⟩
    rw [World.store_push hsound.snapshots]
    have hplan : w.store.plan (.clone self) = .ok (.copy tree.document) := by
      simp [Store.plan, World.use_of_receives hrec, hroot, pure, Except.pure]
    have hperform := Store.Step.perform hplan .copy
    rwa [Store.value, World.length_refs_store] at hperform
  · obtain ⟨copy, hclone, hholds⟩ := cloneSubtree_holds hwf (hsound.live hrec) hroot
    refine ⟨_, _, hcreates copy hclone, hsound.snapshots.store_create hholds ?_⟩
    simp [Store.plan, World.use_of_receives hrec, hroot, pure, Except.pure]

/-- `extract`. -/
theorem extract_step (hsound : w.Sound) (hcalm : ApiEvent.Calm ⟨w, ⟨.extract self, r⟩, w'⟩)
    (hstep : ApiStep w ⟨.extract self, r⟩ w') : w.store.Step ⟨.extract self, r⟩ w'.store := by
  refine hstep.store_step_of_receiver hsound.snapshots
    (fun fuel => ((Consults.withTreeMut _).bind _).map _) (fun he => by rw [Store.plan, he]; rfl)
    fun h tree hrec => ?_
  obtain ⟨hwf, -⟩ := hsound.receiver hrec
  by_cases hroot : h.node = tree.root
  · have hraises : Answers (fun fuel => SExp.extract fuel self w)
        (.error (.valueError "cannot extract the root node"), w) :=
      .bind (SExp.withTreeMut_raises hrec (.const fun _ => by rw [if_pos hroot]; rfl))
        (.const fun _ => rfl)
    refine hstep.store_step (.refuse (PyM.map_answers hraises _) ?_)
    simp [Store.plan, World.use_of_receives hrec, hroot]
  · obtain ⟨copy, hclone, hholds⟩ := cloneSubtree_holds hwf (hsound.live hrec) hroot
    obtain ⟨tree₁, hremove, -, hdeleted, -, -⟩ :=
      remove_consistent hwf.toConsistent (hsound.live hrec)
    have hextract : Answers (fun fuel => extractSubtree fuel tree h.node) (tree₁, copy) := by
      refine .bind hclone ?_
      simp only [if_neg hroot]
      exact .bind hremove (.const fun _ => rfl)
    have hreturns : Answers (fun fuel => SExp.extract fuel self w)
        (.ok w.handles.length, (w.refreshed self h tree₁.bumpVersion).push copy) := by
      rw [← World.length_handles_refreshed w self h tree₁.bumpVersion]
      have htaken : Answers (fun fuel => do
          if h.node = tree.root then
            return ((.error (.valueError "cannot extract the root node") : Except PyErr Tree), tree)
          else
            let p ← extractSubtree fuel tree h.node
            return (.ok p.2, p.1.bumpVersion)) (.ok copy, tree₁.bumpVersion) := by
        simp only [if_neg hroot]
        exact .bind hextract (.const fun _ => rfl)
      exact .bind (SExp.withTreeMut_answers hrec htaken) (.const fun _ => rfl)
    obtain ⟨rfl, rfl⟩ := hstep.eq_of_answers (PyM.map_answers hreturns Value.sexp)
    obtain ⟨fuel, hfuel⟩ := hremove.exists_fuel
    have hwrite : w.Writes fuel h tree (.extract self) tree₁.bumpVersion :=
      .remove rfl hroot hfuel
    have htree₁ := List.mem_of_getElem? (World.trees_refreshed hrec tree₁.bumpVersion)
    have hafter := List.mem_append_left [copy] htree₁
    -- without the copy, this is what `remove` does
    have hremoved : (w.refreshed self h tree₁.bumpVersion).Sound := by
      have heffect : Effect fuel w (.remove self) .none (w.refreshed self h tree₁.bumpVersion) :=
        .write rfl hrec rfl (by simp) (.remove rfl hroot hfuel)
      refine heffect.sound hsound (Call.attachesOnly_of_none fun _ _ _ _ hop => by cases hop)
        hcalm.removes hcalm.overflow fun tree htree => ?_
      exact hcalm.small tree (List.mem_append_left [copy] htree)
    rw [World.store_push hremoved.snapshots,
      hwrite.store_restructured hcalm hsound rfl hrec hafter rfl]
    have hplan : w.store.plan (.extract self) = .ok (.extract self ⟨h.tree, tree.document, h.node⟩
        (Reference.copied (tree.document.contents h.node))) := by
      simp [Store.plan, World.use_of_receives hrec, hroot, pure, Except.pure]
    have hdeletes : tree.document.Deletes tree₁.bumpVersion.document h.node :=
      Tree.Deleted.document hdeleted hwf (hcalm.wellFormed hsound rfl hrec hwrite hafter)
        hwrite.root_eq hwrite.bare_eq
    have hperform := Store.Step.perform hplan (.extract hdeletes hholds)
    rwa [Store.value, World.length_refs_store] at hperform

end Sexp
