import Sexp.Py.Cache
import Sexp.Py.Guard
import Sexp.Py.Staleness

/-! # Iterating over the children of a node

An iterator holds the node that it yields next, and the version at which it was created. As long as
no call bumps the version, the forward links stay as they are, whatever else is called, so that the
iterator walks the children that the node had at first; once a call has bumped it, the iterator
raises, unless it has already yielded all of them (`iterator_faithful`). -/

namespace Sexp

open Library (Run Walk)

variable {fuel : Nat} {w w' : World} {c : Call} {v : Value} {h : Handle} {tree tree' : Tree}
  {events later earlier : List ApiEvent} {e : ApiEvent} {i : IterRef} {t : Nat}
  {version : UInt64} {l rest : List NodeId} {id : NodeId}

/-! ## Events -/

/-- **The event mutates a tree**: a call of `append`, `prepend`, `insert_after`, `remove` or
`extract` on a receiver in the tree returns. -/
structure ApiEvent.Mutates (t : Nat) (e : ApiEvent) : Prop where
  /-- The call is one of these. -/
  bumps : e.label.call.bumps = true
  /-- The call returns. -/
  returns : ∃ v, e.label.result = .ok v
  /-- The receiver belongs to the tree. -/
  receiver : ∃ self h, e.label.call.self? = some self ∧ e.before.handles[self]? = some h ∧
    h.tree = t

/-- The node of the handle that an iterator yields in an event. -/
def ApiEvent.yields (i : IterRef) (e : ApiEvent) : Option NodeId :=
  match e.label.call, e.label.result with
  | .next j, .ok (.sexp ref) => if j = i then e.after.handles[ref]?.map Handle.node else none
  | _, _ => none

/-- **The nodes that an iterator yields**, in the order in which it yields them. -/
def yielded (i : IterRef) : List ApiEvent → List NodeId
  | [] => []
  | e :: events => yielded i events ++ (e.yields i).toList

/-- Calls other than advancing the iterator yield nothing from it. -/
theorem ApiEvent.yields_of_ne (h : e.label.call ≠ .next i) : e.yields i = none := by
  unfold ApiEvent.yields
  split
  · rename_i j ref hcall _
    rw [if_neg]
    rintro rfl
    exact h hcall
  · rfl

/-- An event in which a call raises yields nothing. -/
theorem ApiEvent.yields_of_error {err : PyErr} (h : e.label.result = .error err) :
    e.yields i = none := by
  unfold ApiEvent.yields
  split
  · rename_i hresult
    rw [h] at hresult
    cases hresult
  · rfl

/-! ## Advancing an iterator -/

/-- An iterator that has nothing left ends. -/
theorem next_ends (hit : w.iters[i]? = some ⟨t, none, version⟩) (fuel : ℕ) :
    call fuel (.next i) w = .ok (.ok .none, w) := by
  refine PyM.map_eq_ok.mpr ⟨none, ?_, rfl⟩
  rw [SExpIter.step, PyM.bind_of_ok (PyM.iter_apply hit)]
  rfl

/-- **An iterator at the version of its tree yields** the node that it holds, and goes on with the
next sibling. -/
theorem next_yields {current : NodeId} (hit : w.iters[i]? = some ⟨t, some current, version⟩)
    (ht : w.trees[t]? = some tree) (hversion : tree.version = version)
    (hlive : tree.Live current) (fuel : ℕ) :
    call fuel (.next i) w = .ok (.ok (.sexp w.handles.length),
      { w with iters := w.iters.set i ⟨t, tree.nextOf current, version⟩ }.extend
        [⟨t, current, version⟩] []) := by
  obtain ⟨node, hnode⟩ := Option.isSome_iff_exists.mp hlive
  have hget : tree.get current = .ok node := Slab.index_eq_ok.mpr hnode
  refine PyM.map_eq_ok.mpr ⟨some w.handles.length, ?_, rfl⟩
  rw [SExpIter.step, PyM.bind_of_ok (PyM.iter_apply hit)]
  change (PyM.treeAt t >>= _) w = _
  rw [PyM.bind_of_ok (PyM.treeAt_apply ht), if_neg (not_not.mpr hversion),
    PyM.bind_of_ok (PyM.lift_eq_ok.mpr ⟨node, hget, rfl, rfl⟩), Tree.nextOf, hnode]
  simp [World.extend]
  rfl

/-! ## Links that stay -/

/-- **A write that does not bump the version keeps the forward links** of the live nodes. -/
theorem World.Writes.nextOf_eq (hwrite : w.Writes fuel h tree c tree')
    (hslab : tree.nodes.WellFormed) (hbumps : c.bumps = false) (hid : tree.Live id) :
    tree'.nextOf id = tree.nextOf id := by
  -- attaching and removing bump the version
  cases hwrite with
  | cache htext => rfl
  | @value self value n hn hatom =>
      unfold Tree.nextOf Tree.withValue Tree.clearReprCache
      simp only [Slab.get_update]
      rcases tree.nodes.get id with _ | m
      · rfl
      · simp only [Option.map_some, Option.bind_some]
        split <;> rfl
  | alloc hc halloc =>
      obtain ⟨m, hm⟩ := Option.isSome_iff_exists.mp hid
      rw [Tree.nextOf, Tree.nextOf, hm, halloc.get_of_live hslab hm]
  | attach hop hrun => cases hop <;> cases hbumps
  | remove hc hne hremove =>
      rw [Call.bumps_of_removes hc] at hbumps
      cases hbumps

/-- **A call that bumps the version** and returns writes the tree of its receiver. -/
theorem Effect.writes_of_bumps (he : Effect fuel w c v w') (hbumps : c.bumps = true) :
    ∃ self k tree tree', c.self? = some self ∧ w.Receives self k tree ∧
      w.Writes fuel k tree c tree' ∧ w'.trees[k.tree]? = some tree' := by
  cases hremoves : c.removes with
  | true => exact he.of_removes hremoves
  | false =>
      obtain ⟨self, k, tree, tree', hself, hrec, hwrite, -, rfl⟩ := he.of_bumps hbumps hremoves
      exact ⟨self, k, tree, tree', hself, hrec, hwrite, World.trees_refreshed hrec tree'⟩

/-! ## The state of an iteration -/

/-- **A tree in which the iterator walks on**: it has the version of the iterator, and its forward
links walk what is left. -/
structure Tree.Ahead (tree : Tree) (version : UInt64) (rest : List NodeId) : Prop where
  /-- The version. -/
  version_eq : tree.version = version
  /-- The links. -/
  walk : Walk tree.nextOf rest.head? rest
  /-- What is left is live. -/
  live : ∀ c ∈ rest, tree.Live c

/-- A write that does not bump the version lets the iterator walk on. -/
theorem Tree.Ahead.of_writes (hahead : tree.Ahead version rest)
    (hwrite : w.Writes fuel h tree c tree') (hslab : tree.nodes.WellFormed)
    (hbumps : c.bumps = false) : tree'.Ahead version rest where
  version_eq := by
    rw [hwrite.version_eq, hbumps]
    exact hahead.version_eq
  walk := hahead.walk.congr fun x hx => hwrite.nextOf_eq hslab hbumps (hahead.live x hx)
  live x hx := hwrite.live hslab hbumps (hahead.live x hx)

/-- **The state of an iterator over `l`** after some events, at which `rest` is left: it has yielded
the nodes in front, and its tree is as it was, or has been mutated and has a later version. -/
structure Iteration (later : List ApiEvent) (w : World) (i : IterRef) (t : Nat) (version : UInt64)
    (l rest : List NodeId) : Prop where
  /-- What has been yielded and what is left. -/
  parts : yielded i later ++ rest = l
  /-- The iterator. -/
  iter_eq : w.iters[i]? = some ⟨t, rest.head?, version⟩
  /-- Its tree. -/
  tree : ∃ tree : Tree, w.trees[t]? = some tree ∧
    ((∀ e ∈ later, ¬ e.Mutates t) ∧ tree.Ahead version rest ∨
      (∃ e ∈ later, e.Mutates t) ∧ version < tree.version)

/-- Advancing the iterator bumps no version. -/
theorem ApiEvent.Mutates.ne_next (hmutates : e.Mutates t) : e.label.call ≠ .next i := by
  intro hcall
  have hbumps := hmutates.bumps
  rw [hcall] at hbumps
  cases hbumps

/-- An event that mutates nothing is added to those before it. -/
theorem Iteration.of_quiet (hiter : Iteration later e.before i t version l rest)
    (hquiet : ¬ e.Mutates t) (hyields : e.yields i = none)
    (hit : e.after.iters[i]? = some ⟨t, rest.head?, version⟩)
    (htree : ∀ tree : Tree, e.before.trees[t]? = some tree →
      ∃ tree', e.after.trees[t]? = some tree' ∧
        (tree.Ahead version rest → tree'.Ahead version rest) ∧ tree.version ≤ tree'.version) :
    Iteration (e :: later) e.after i t version l rest := by
  obtain ⟨tree, ht, hcases⟩ := hiter.tree
  obtain ⟨tree', ht', hahead', hle⟩ := htree tree ht
  refine ⟨?_, hit, tree', ht', ?_⟩
  · rw [yielded, hyields, Option.toList_none, List.append_nil]
    exact hiter.parts
  · rcases hcases with ⟨hnone, hahead⟩ | ⟨⟨x, hx, hmutates⟩, hlt⟩
    · exact .inl ⟨List.forall_mem_cons.mpr ⟨hquiet, hnone⟩, hahead' hahead⟩
    · exact .inr ⟨⟨x, List.mem_cons_of_mem e hx, hmutates⟩, UInt64.lt_of_lt_of_le hlt hle⟩

/-- When nothing is left, advancing the iterator ends the iteration. -/
theorem Iteration.ends (hiter : Iteration later w i t version l []) (fuel : ℕ) :
    call fuel (.next i) w = .ok (.ok .none, w) := next_ends hiter.iter_eq fuel

/-- When something is left in a tree that has been mutated, advancing the iterator raises. -/
theorem Iteration.raises {current : NodeId}
    (hiter : Iteration later w i t version l (current :: rest))
    (hmutated : ∃ x ∈ later, x.Mutates t) (fuel : ℕ) :
    call fuel (.next i) w = .ok (.error staleError, w) := by
  obtain ⟨tree, ht, ⟨hnone, -⟩ | ⟨-, hlt⟩⟩ := hiter.tree
  · obtain ⟨x, hx, hmutates⟩ := hmutated
    exact absurd hmutates (hnone x hx)
  · have hstale : w.StaleIter i :=
      ⟨_, tree, current, hiter.iter_eq, rfl, ht, (UInt64.ne_of_lt hlt).symm⟩
    exact call_of_staleIter hstale fuel

/-- When something is left in a tree that has not been mutated, advancing the iterator yields the
next node. -/
theorem Iteration.continues {current : NodeId}
    (hiter : Iteration later w i t version l (current :: rest))
    (hnone : ∀ x ∈ later, ¬ x.Mutates t) :
    ∃ tree : Tree, w.trees[t]? = some tree ∧ tree.Ahead version (current :: rest) ∧
      ∀ fuel, call fuel (.next i) w = .ok (.ok (.sexp w.handles.length),
        { w with iters := w.iters.set i ⟨t, tree.nextOf current, version⟩ }.extend
          [⟨t, current, version⟩] []) := by
  obtain ⟨tree, ht, ⟨-, hahead⟩ | ⟨⟨x, hx, hmutates⟩, -⟩⟩ := hiter.tree
  · have hlive := hahead.live current List.mem_cons_self
    exact ⟨tree, ht, hahead, next_yields hiter.iter_eq ht hahead.version_eq hlive⟩
  · exact absurd hmutates (hnone x hx)

/-- What a step does is what its call does with some fuel. -/
theorem ApiStep.eq_of_call {x : Except PyErr Value} {w₁ : World}
    (hstep : ApiStep e.before e.label e.after)
    (hcall : ∀ fuel, call fuel e.label.call e.before = .ok (x, w₁)) :
    e.label.result = x ∧ e.after = w₁ := by
  obtain ⟨fuel, hfuel⟩ := hstep
  rw [hcall fuel] at hfuel
  obtain ⟨hresult, hafter⟩ := Prod.mk.inj (Except.ok.inj hfuel)
  exact ⟨hresult.symm, hafter.symm⟩

/-- **When advancing the iterator yields nothing**: nothing is left, or the tree has been mutated.
-/
theorem Iteration.yields_none (hiter : Iteration later e.before i t version l rest)
    (hstep : ApiStep e.before e.label e.after) (hcall : e.label.call = .next i)
    (hstops : rest = [] ∨ ∃ x ∈ later, x.Mutates t) : e.yields i = none ∧ e.after = e.before := by
  rcases rest with _ | ⟨current, rest⟩
  · obtain ⟨hresult, hafter⟩ := hstep.eq_of_call (hcall ▸ hiter.ends)
    refine ⟨?_, hafter⟩
    unfold ApiEvent.yields
    rw [hcall, hresult]
  · have hmutated := hstops.resolve_left (List.cons_ne_nil current rest)
    obtain ⟨hresult, hafter⟩ := hstep.eq_of_call (hcall ▸ hiter.raises hmutated)
    exact ⟨ApiEvent.yields_of_error hresult, hafter⟩

/-- **What advancing the iterator does to the iteration.** -/
theorem Iteration.of_next (hiter : Iteration later e.before i t version l rest)
    (hcall : e.label.call = .next i) (hstep : ApiStep e.before e.label e.after) :
    ∃ rest', Iteration (e :: later) e.after i t version l rest' := by
  have hquiet : ¬ e.Mutates t := fun hmutates => hmutates.ne_next hcall
  by_cases hstops : rest = [] ∨ ∃ x ∈ later, x.Mutates t
  · -- at its end, or stale: nothing is yielded
    obtain ⟨hyields, hsame⟩ := hiter.yields_none hstep hcall hstops
    refine ⟨rest, hiter.of_quiet hquiet hyields (hsame ▸ hiter.iter_eq) fun tree ht => ?_⟩
    exact ⟨tree, hsame ▸ ht, fun h => h, UInt64.le_refl _⟩
  · -- otherwise the first node that is left is yielded
    obtain ⟨hne, hnone⟩ := not_or.mp hstops
    have hnone : ∀ x ∈ later, ¬ x.Mutates t := fun x hx hmutates => hnone ⟨x, hx, hmutates⟩
    obtain ⟨current, rest, rfl⟩ := List.exists_cons_of_ne_nil hne
    obtain ⟨tree, ht, hahead, hyields⟩ := hiter.continues hnone
    obtain ⟨hresult, hafter⟩ := hstep.eq_of_call (hcall ▸ hyields)
    have hwalk : Walk tree.nextOf (tree.nextOf current) rest := hahead.walk.2
    have hyielded : e.yields i = some current := by
      unfold ApiEvent.yields
      rw [hcall, hresult, hafter]
      simp [World.extend]
    have ht' : e.after.trees[t]? = some tree := by
      rw [hafter]
      exact ht
    refine ⟨rest, ?_, ?_, tree, ht', .inl ⟨?_, ?_⟩⟩
    · rw [yielded, hyielded, Option.toList_some, List.append_assoc, List.singleton_append]
      exact hiter.parts
    · rw [hafter, ← hwalk.start_eq, World.extend, List.append_nil]
      exact List.getElem?_set_self (List.getElem?_eq_some_iff.mp hiter.iter_eq).1
    · exact List.forall_mem_cons.mpr ⟨hquiet, hnone⟩
    · refine ⟨hahead.version_eq, hwalk.start_eq ▸ hwalk, fun x hx => ?_⟩
      exact hahead.live x (List.mem_cons_of_mem current hx)

/-- **Every step carries an iteration on**, unless a version overflows. -/
theorem ApiStep.iteration (hstep : ApiStep e.before e.label e.after)
    (hslabs : e.before.AllTrees fun tree => tree.nodes.WellFormed)
    (hoverflow : e.label.call.NoOverflow e.before)
    (hiter : Iteration later e.before i t version l rest) :
    ∃ rest', Iteration (e :: later) e.after i t version l rest' := by
  by_cases hcall : e.label.call = .next i
  · exact hiter.of_next hcall hstep
  have hyields := ApiEvent.yields_of_ne hcall
  refine ⟨rest, ?_⟩
  -- a call that raises changes nothing; one that returns may write one tree
  rcases hstep.cases with ⟨⟨err, herr⟩, hsame⟩ | ⟨fuel, v, hresult, heffect⟩
  · refine hiter.of_quiet ?_ hyields (hsame ▸ hiter.iter_eq) fun tree ht => ?_
    · rintro ⟨-, ⟨v, hv⟩, -⟩
      rw [herr] at hv
      cases hv
    · exact ⟨tree, hsame ▸ ht, fun h => h, UInt64.le_refl _⟩
  · have hit : e.after.iters[i]? = some ⟨t, rest.head?, version⟩ := by
      obtain ⟨it', hit', -, -, rfl | ⟨_, _, _, hnext, -⟩⟩ := heffect.iter_step hiter.iter_eq
      · exact hit'
      · exact absurd hnext hcall
    by_cases hmutates : e.Mutates t
    · -- the version of the tree has been reached, and grows
      obtain ⟨self, k, hself, hk, rfl⟩ := hmutates.receiver
      obtain ⟨self', k', tree, tree', hself', hrec, hwrite, ht'⟩ :=
        heffect.writes_of_bumps hmutates.bumps
      obtain rfl := Option.some.inj (hself.symm.trans hself')
      obtain rfl := Option.some.inj (hk.symm.trans hrec.handle_eq)
      have hlt : tree.version < tree'.version := by
        rw [hwrite.version_eq, if_pos hmutates.bumps]
        exact version_lt_succ (hoverflow self k tree hself hrec hmutates.bumps)
      refine ⟨?_, hit, tree', ht', .inr ⟨⟨e, List.mem_cons_self, hmutates⟩, ?_⟩⟩
      · rw [yielded, hyields, Option.toList_none, List.append_nil]
        exact hiter.parts
      · -- the iterator keeps its version, which the tree had reached before
        obtain ⟨tree₁, ht₁, hcases⟩ := hiter.tree
        obtain rfl := Option.some.inj (hrec.tree_eq.symm.trans ht₁)
        rcases hcases with ⟨-, hahead⟩ | ⟨-, hbefore⟩
        · rw [← hahead.version_eq]
          exact hlt
        · exact UInt64.lt_trans hbefore hlt
    · -- whatever else is written, the forward links and the version stay
      refine hiter.of_quiet hmutates hyields hit fun tree ht => ?_
      obtain ⟨tree', ht', hcases⟩ := heffect.tree_step ht
      refine ⟨tree', ht', ?_⟩
      rcases hcases with rfl | ⟨self, k, hself, hrec, hk, hwrite⟩
      · exact ⟨fun h => h, UInt64.le_refl _⟩
      · have hbumps : e.label.call.bumps = false := by
          refine Bool.eq_false_iff.mpr fun hbumps => hmutates ?_
          exact ⟨hbumps, ⟨v, hresult⟩, self, k, hself, hrec.handle_eq, hk⟩
        refine ⟨fun hahead => hahead.of_writes hwrite ?_ hbumps, ?_⟩
        · exact hslabs tree (List.mem_of_getElem? ht)
        · exact hwrite.version_le (hoverflow self k tree hself hrec)

/-! ## A new iterator -/

/-- **What a new iterator goes over**, in a tree: the children of the receiver, or the children
after the first. -/
inductive World.GoesOver (w : World) : Call → Nat → List NodeId → Prop where
  /-- `iter(self)`. -/
  | iter {self : HandleRef} {h : Handle} {tree : Tree} {n : Node} {l : List NodeId}
      (hrec : w.Receives self h tree) (hn : tree.nodes.get h.node = some n)
      (hl : tree.IsChildList h.node n l) : GoesOver w (.iter self) h.tree l
  /-- `self.tail`. -/
  | tail {self : HandleRef} {h : Handle} {tree : Tree} {n : Node} {l : List NodeId}
      (hrec : w.Receives self h tree) (hn : tree.nodes.get h.node = some n)
      (hl : tree.IsChildList h.node n l) : GoesOver w (.tail self) h.tree l.tail

/-- The walk over the children behind the first starts at the second one. -/
theorem Tree.IsChildList.walk_tail {p : NodeId} {n : Node} (hl : tree.IsChildList p n l) :
    Walk tree.nextOf l.tail.head? l.tail := by
  rcases l with _ | ⟨c, l⟩
  · rfl
  · have hrest := hl.forward.2
    rwa [hrest.start_eq] at hrest

/-- The second child of a node. -/
theorem SExp.secondChild_eq {p : NodeId} {n : Node} (hn : tree.nodes.get p = some n)
    (hl : tree.IsChildList p n l) : secondChild tree p = .ok l.tail.head? := by
  have hget : tree.get p = .ok n := Slab.index_eq_ok.mpr hn
  have hwalk := hl.forward
  rw [secondChild, Tree.firstChild, hget]
  rcases l with _ | ⟨c, l⟩
  · simp only [Library.ok_bind, Library.pure_eq_ok, show n.firstChild = none from hwalk]
    rfl
  · simp only [Library.ok_bind, Library.pure_eq_ok, hwalk.1,
      Tree.nextSibling_of_live (hl.live c List.mem_cons_self), List.tail_cons, hwalk.2.start_eq]

/-- The iteration of an iterator that has just been created. -/
theorem iteration_shareIter {self : HandleRef} (hrec : w.Receives self h tree)
    (hwalk : Walk tree.nextOf l.head? l) (hlive : ∀ c ∈ l, tree.Live c)
    (hshare : SExp.shareIter self l.head? tree.version w = .ok (.ok i, w')) :
    Iteration [] w' i h.tree tree.version l l := by
  rw [SExp.shareIter_apply hrec.handle_eq] at hshare
  cases hshare
  refine ⟨List.nil_append l, ?_, tree, hrec.tree_eq, .inl ⟨?_, rfl, hwalk, hlive⟩⟩
  · rw [World.extend, List.getElem?_append_right le_rfl, Nat.sub_self]
    rfl
  · exact fun x hx => absurd hx List.not_mem_nil

/-- **Creating an iterator** over the children of a node of a consistent tree begins an iteration
over them. -/
theorem ApiStep.new_iteration {self : HandleRef} (hstep : ApiStep w ⟨c, .ok (.iter i)⟩ w')
    (hc : c = .iter self ∨ c = .tail self) (hcons : w.AllTrees Tree.Consistent) :
    ∃ t version l, w.GoesOver c t l ∧ Iteration [] w' i t version l l := by
  have hchildren : ∀ {h tree n}, w.Receives self h tree → tree.nodes.get h.node = some n →
      ∃ l, tree.IsChildList h.node n l := fun {h tree n} hrec hn =>
    (hcons tree (List.mem_of_getElem? hrec.tree_eq)).children h.node n hn
  obtain ⟨fuel, hfuel⟩ := hstep
  -- from the first child, or from the one behind it
  rcases hc with rfl | rfl
  · obtain ⟨a, ha, ⟨rfl⟩⟩ := PyM.map_eq_ok.mp hfuel
    obtain ⟨h, tree, next, hrec, hnext, hshare⟩ := SExp.read_bind_ok ha
    obtain ⟨first, hfirst, hpure⟩ := Library.bind_eq_ok.mp hnext
    obtain ⟨n, hn, hpure'⟩ := Library.bind_eq_ok.mp hfirst
    have hn := Slab.index_eq_ok.mp hn
    obtain ⟨l, hl⟩ := hchildren hrec hn
    cases hpure
    cases hpure'
    have hwalk := hl.forward
    have hstart : n.firstChild = l.head? := hwalk.start_eq
    change SExp.shareIter self n.firstChild tree.version w = _ at hshare
    rw [hstart] at hshare hwalk
    exact ⟨h.tree, tree.version, l, .iter hrec hn hl,
      iteration_shareIter hrec hwalk hl.live hshare⟩
  · obtain ⟨a, ha, ⟨rfl⟩⟩ := PyM.map_eq_ok.mp hfuel
    obtain ⟨h, tree, next, hrec, hnext, hshare⟩ := SExp.read_bind_ok ha
    obtain ⟨second, hsecond, hpure⟩ := Library.bind_eq_ok.mp hnext
    obtain ⟨first, hfirst, -⟩ := Library.bind_eq_ok.mp hsecond
    obtain ⟨n, hn, -⟩ := Library.bind_eq_ok.mp hfirst
    have hn := Slab.index_eq_ok.mp hn
    obtain ⟨l, hl⟩ := hchildren hrec hn
    cases hpure
    rw [SExp.secondChild_eq hn hl] at hsecond
    cases hsecond
    have hlive : ∀ c ∈ l.tail, tree.Live c := fun c hc => hl.live c (List.mem_of_mem_tail hc)
    exact ⟨h.tree, tree.version, l.tail, .tail hrec hn hl,
      iteration_shareIter hrec hl.walk_tail hlive hshare⟩

/-! ## Runs -/

/-- **The iteration in a run**: every later event carries it on. -/
theorem iteration_of_run (hrun : ApiRun (later ++ e :: earlier) w)
    (hnew : Iteration [] e.after i t version l l)
    (hoverflow : ∀ x ∈ later, x.label.call.NoOverflow x.before) :
    ∃ rest, Iteration later w i t version l rest := by
  induction later generalizing w with
  | nil =>
      cases hrun
      exact ⟨l, hnew⟩
  | cons x later ih =>
      cases hrun with
      | cons run hstep =>
        obtain ⟨rest, hiter⟩ := ih run fun y hy => hoverflow y (List.mem_cons_of_mem _ hy)
        exact ApiStep.iteration hstep (slabs_of_run run) (hoverflow _ List.mem_cons_self) hiter

/-- **An iterator is faithful to the list `l`**, in the state `w` that some events have led to: what
it has yielded is in order, and so is what advancing it does in this state. -/
structure FaithfulIteration (later : List ApiEvent) (i : IterRef) (t : Nat) (l : List NodeId)
    (w : World) : Prop where
  /-- What has been yielded is the front part of the list. -/
  yielded_front : yielded i later <+: l
  /-- When all of it has been yielded, the iteration ends. -/
  ends : yielded i later = l → ∀ fuel, call fuel (.next i) w = .ok (.ok .none, w)
  /-- When there is more, and the tree has not been mutated, the next node is yielded, with a handle
  that is not stale. -/
  continues : (∀ e ∈ later, ¬ e.Mutates t) → ∀ c rest, l = yielded i later ++ c :: rest →
    ∃ w', (∀ fuel, call fuel (.next i) w = .ok (.ok (.sexp w.handles.length), w')) ∧
      ∃ h tree, w'.Receives w.handles.length h tree ∧ h.tree = t ∧ h.node = c ∧ tree.Live c
  /-- When there is more, and the tree has been mutated, advancing raises. -/
  raises : (∃ e ∈ later, e.Mutates t) → yielded i later ≠ l →
    ∀ fuel, call fuel (.next i) w = .ok (.error staleError, w)
  /-- Nothing is yielded after the tree has been mutated. -/
  stops : ∀ after e before, later = after ++ e :: before → e.Mutates t → yielded i after = []

/-- A handle that an iterator creates at the version of its tree is not stale. -/
theorem World.receives_extend {iters : List SExpIter} {current : NodeId}
    (ht : w.trees[t]? = some tree) (hversion : tree.version = version) :
    ({ w with iters := iters }.extend [⟨t, current, version⟩] []).Receives
      w.handles.length ⟨t, current, version⟩ tree := by
  refine ⟨?_, ht, Handle.fresh_of_version hversion.symm⟩
  rw [World.extend, List.getElem?_append_right le_rfl, Nat.sub_self]
  rfl

/-- **After the tree has been mutated nothing is yielded.** -/
theorem yielded_eq_nil {after before : List ApiEvent} {b : ApiEvent}
    (hrun : ApiRun ((after ++ b :: before) ++ e :: earlier) w) (hmutates : b.Mutates t)
    (hnew : Iteration [] e.after i t version l l)
    (hoverflow : ∀ x ∈ after ++ b :: before, x.label.call.NoOverflow x.before) :
    yielded i after = [] := by
  -- induction on what came after the mutation: every one of these steps yields nothing
  induction after generalizing w with
  | nil => rfl
  | cons x after ih =>
      cases hrun with
      | @cons _ _ _ label run hstep =>
        have hoverflow' : ∀ y ∈ after ++ b :: before, y.label.call.NoOverflow y.before :=
          fun y hy => hoverflow y (List.mem_cons_of_mem _ hy)
        obtain ⟨rest, hiter⟩ := iteration_of_run run hnew hoverflow'
        have hmutated : ∃ y ∈ after ++ b :: before, y.Mutates t :=
          ⟨b, List.mem_append_right _ List.mem_cons_self, hmutates⟩
        rw [yielded, ih run hoverflow', List.nil_append, Option.toList_eq_nil_iff]
        by_cases hcall : label.call = .next i
        · exact (hiter.yields_none hstep hcall (.inr hmutated)).1
        · exact ApiEvent.yields_of_ne hcall

/-- **Iterators are faithful.** In every run, an iterator that is created over the children of a
node while the trees are consistent is faithful to them ever after, whatever else is called, unless
a version overflows. -/
theorem iterator_faithful {self : HandleRef} (hrun : ApiRun (later ++ e :: earlier) w)
    (hcall : e.label.call = .iter self ∨ e.label.call = .tail self)
    (hresult : e.label.result = .ok (.iter i)) (hcons : e.before.AllTrees Tree.Consistent)
    (hoverflow : ∀ x ∈ later, x.label.call.NoOverflow x.before) :
    ∃ t l, e.before.GoesOver e.label.call t l ∧ FaithfulIteration later i t l w := by
  have hstep : ApiStep e.before ⟨e.label.call, .ok (.iter i)⟩ e.after :=
    hresult ▸ Run.step_of_mem hrun e (List.mem_append_right _ List.mem_cons_self)
  obtain ⟨t, version, l, hover, hnew⟩ := hstep.new_iteration hcall hcons
  obtain ⟨rest, hiter⟩ := iteration_of_run hrun hnew hoverflow
  refine ⟨t, l, hover, ?_⟩
  constructor
  case yielded_front => exact ⟨rest, hiter.parts⟩
  case ends =>
    intro hall
    have hparts := hiter.parts
    rw [hall, List.append_right_eq_self] at hparts
    subst hparts
    exact hiter.ends
  case continues =>
    intro hnone c rest' hl
    have hparts := hiter.parts
    rw [hl, List.append_cancel_left_eq] at hparts
    subst hparts
    obtain ⟨tree, ht, hahead, hyields⟩ := hiter.continues hnone
    have hlive := hahead.live c List.mem_cons_self
    refine ⟨_, hyields, ⟨t, c, version⟩, tree, ?_, rfl, rfl, hlive⟩
    exact World.receives_extend ht hahead.version_eq
  case raises =>
    intro hmutated hne
    rcases rest with _ | ⟨current, rest⟩
    · have hparts := hiter.parts
      rw [List.append_nil] at hparts
      exact absurd hparts hne
    · exact hiter.raises hmutated
  case stops =>
    rintro after b before rfl hmutates
    exact yielded_eq_nil hrun hmutates hnew hoverflow

/-- The objects after `it = iter(t)` at a list in a list. -/
def nestedIter : World := { nested with iters := [⟨0, some ⟨1⟩, 1⟩] }

/-- `iter(t)`. -/
theorem step_nestedIter : ApiStep nested ⟨.iter 0, .ok (.iter 0)⟩ nestedIter := ⟨0, rfl⟩

/-- The objects after `next(it)`. -/
def nestedNext : World :=
  { nested with
    handles := [⟨0, ⟨0⟩, 1⟩, ⟨0, ⟨1⟩, 0⟩, ⟨0, ⟨1⟩, 1⟩]
    iters := [⟨0, none, 1⟩] }

/-- `next(it)`. -/
theorem step_nestedNext : ApiStep nestedIter ⟨.next 0, .ok (.sexp 2)⟩ nestedNext := ⟨0, rfl⟩

/-- `iterator_faithful` at a list in a list. -/
theorem iterator_faithful_nested : ∃ t l, nested.GoesOver (.iter 0) t l ∧
    FaithfulIteration [⟨nestedIter, ⟨.next 0, .ok (.sexp 2)⟩, nestedNext⟩] 0 t l nestedNext := by
  have hcons : nested.AllTrees Tree.Consistent :=
    consistent_of_run run_nested eventsNested_guarded
  have hrun : ApiRun ([⟨nestedIter, ⟨.next 0, .ok (.sexp 2)⟩, nestedNext⟩] ++
      ⟨nested, ⟨.iter 0, .ok (.iter 0)⟩, nestedIter⟩ :: eventsNested) nestedNext :=
    (run_nested.cons step_nestedIter).cons step_nestedNext
  refine iterator_faithful hrun (.inl rfl) rfl hcons (List.forall_mem_singleton.mpr ?_)
  exact .of_not_bumps rfl

/-! ## A version counter that wraps around -/

/-- The objects after `it = iter(t)` and some more `t.append(a)`. -/
def iterating (version : UInt64) : World :=
  { listAppended version with iters := [⟨0, some ⟨1⟩, 1⟩] }

/-- `iter(t)` after the first `t.append(a)`. -/
def newIterator : ApiEvent := ⟨listAppended 1, ⟨.iter 0, .ok (.iter 0)⟩, iterating 1⟩

/-- Every further `t.append(a)` only bumps the version. -/
theorem step_iterating (version : UInt64) :
    ApiStep (iterating version) ⟨.append 0 1, .ok .none⟩ (iterating (version + 1)) := ⟨3, rfl⟩

/-- The run with `k` calls of `t.append(a)` after `iter(t)`, in which the iterator yields nothing.
-/
theorem run_iterating (k : ℕ) : ∃ later earlier,
    ApiRun (later ++ newIterator :: earlier) (iterating (UInt64.ofNat (k + 1))) ∧
      yielded 0 later = [] ∧ (0 < k → ∃ e ∈ later, e.Mutates 0) := by
  induction k with
  | zero =>
      obtain ⟨events, hrun⟩ := run_listAppended 0
      have hnew : ApiStep (listAppended 1) ⟨.iter 0, .ok (.iter 0)⟩ (iterating 1) := ⟨0, rfl⟩
      exact ⟨[], events, hrun.cons hnew, rfl, fun hpos => absurd hpos (Nat.lt_irrefl 0)⟩
  | succ k ih =>
      obtain ⟨later, earlier, hrun, hyielded, -⟩ := ih
      have hnext : UInt64.ofNat (k + 1 + 1) = UInt64.ofNat (k + 1) + 1 := by
        rw [UInt64.ofNat_add]
        rfl
      have hstep := step_iterating (UInt64.ofNat (k + 1))
      rw [← hnext] at hstep
      refine ⟨_ :: later, earlier, hrun.cons hstep, ?_, fun _ => ⟨_, List.mem_cons_self, ?_⟩⟩
      · rw [yielded, hyielded]
        rfl
      · exact ⟨rfl, ⟨.none, rfl⟩, 0, _, rfl, rfl, rfl⟩

/-- **A version counter that wraps around makes an iterator valid again.** After `it = iter(t)` and
`2 ^ 64` calls of `t.append(a)` the version is the one of the iterator again, and `next(it)` yields
`a` instead of raising. -/
theorem iterator_unfaithful : ¬ ∀ later e earlier w i self, ApiRun (later ++ e :: earlier) w →
    (e.label.call = .iter self ∨ e.label.call = .tail self) → e.label.result = .ok (.iter i) →
      e.before.AllTrees Tree.Consistent →
        ∃ t l, e.before.GoesOver e.label.call t l ∧ FaithfulIteration later i t l w := by
  intro hfaithful
  obtain ⟨later, earlier, hrun, hyielded, hmutated⟩ := run_iterating (2 ^ 64)
  have hwrap : UInt64.ofNat (2 ^ 64 + 1) = 1 := rfl
  rw [hwrap] at hrun
  have hcons : (listAppended 1).AllTrees Tree.Consistent :=
    List.forall_mem_singleton.mpr (atomAppended_wellFormed 1).toConsistent
  obtain ⟨t, l, hover, hiter⟩ :=
    hfaithful later newIterator earlier _ 0 0 hrun (.inl rfl) rfl hcons
  cases hover with
  | @iter _ h tree n l hrec hn hl =>
    obtain rfl : (⟨0, ⟨0⟩, 1⟩ : Handle) = h := Option.some.inj hrec.handle_eq
    obtain rfl : atomAppended 1 = tree := Option.some.inj hrec.tree_eq
    -- the list has a child, which has not been yielded
    have hne : yielded 0 later ≠ l := by
      rintro rfl
      have hwalk := hl.forward
      rw [hyielded] at hwalk
      cases hn
      cases hwalk
    have hraises := hiter.raises (hmutated (Nat.two_pow_pos 64)) hne 0
    have hit : (iterating 1).iters[0]? = some ⟨0, some ⟨1⟩, 1⟩ := rfl
    have hlive : (atomAppended 1).Live ⟨1⟩ := rfl
    rw [next_yields hit rfl rfl hlive 0] at hraises
    cases hraises

end Sexp
