import Sexp.Py.Counting

/-! # Calls on different trees

Calls that name objects of different trees do not see each other. The proof compares two worlds in
which a call finds the same objects (`World.Mirror`): it gives the same result in both, and leaves
worlds that are related again. A call that creates objects needs worlds in which as many of them
have been created (`World.CreatesAlike`), since a new object is named by its place. -/

namespace Sexp

open Library (Event Run)

/-! ## Methods in two worlds -/

/-- **A relation between worlds in which the objects that are named are the same**: the handles
`refs`, which belong to the trees that satisfy `mine`, and these trees. Writing them keeps it. -/
structure World.Mirror (R : World → World → Prop) (refs : List HandleRef) (mine : ℕ → Prop) :
    Prop where
  /-- The handles. -/
  handle : ∀ {w v ref h}, R w v → ref ∈ refs → w.handles[ref]? = some h →
    mine h.tree ∧ v.handles[ref]? = some h
  /-- The trees. -/
  treeAt : ∀ {w v t tree}, R w v → mine t → w.trees[t]? = some tree → v.trees[t]? = some tree
  /-- A tree is written. -/
  setTree : ∀ {w v t} (tree : Tree), R w v → mine t →
    R { w with trees := w.trees.set t tree } { v with trees := v.trees.set t tree }
  /-- A handle is refreshed. -/
  setHandle : ∀ {w v ref h}, R w v → ref ∈ refs → mine h.tree →
    R { w with handles := w.handles.set ref h } { v with handles := v.handles.set ref h }

/-- **A relation between worlds with as many objects**, that is kept when both get another one. -/
structure World.CreatesAlike (R : World → World → Prop) (iters : List IterRef)
    (mine : ℕ → Prop) : Prop where
  /-- As many handles. -/
  length_handles : ∀ {w v}, R w v → v.handles.length = w.handles.length
  /-- As many iterators. -/
  length_iters : ∀ {w v}, R w v → v.iters.length = w.iters.length
  /-- Handles to the trees. -/
  handles : ∀ {w v hs}, R w v → (∀ h ∈ hs, mine h.tree) → R (w.extend hs []) (v.extend hs [])
  /-- An iterator over one of the trees. -/
  newIter : ∀ {w v it}, R w v → mine it.tree → R (w.extend [] [it]) (v.extend [] [it])
  /-- A new tree. -/
  push : ∀ {w v} (tree : Tree), R w v → R (w.push tree) (v.push tree)
  /-- The iterators that are named. -/
  iter : ∀ {w v ref it}, R w v → ref ∈ iters → w.iters[ref]? = some it →
    mine it.tree ∧ v.iters[ref]? = some it
  /-- An iterator goes on. -/
  setIter : ∀ {w v ref it}, R w v → mine it.tree →
    R { w with iters := w.iters.set ref it } { v with iters := v.iters.set ref it }

/-- **A method that gives the same result in related worlds**, and leaves related ones. -/
def PyM.Respects {α : Type} (R : World → World → Prop) (x : PyM α) : Prop :=
  ∀ w v r w', R w v → x w = .ok (r, w') → ∃ v', x v = .ok (r, v') ∧ R w' v'

namespace PyM

variable {α β : Type} {R : World → World → Prop} {x : PyM α} {f : α → PyM β}

/-- A method that looks at no object. -/
theorem Respects.of_const {r : Except PyErr α} (h : ∀ w, x w = .ok (r, w)) : Respects R x := by
  intro w v r' w' hR hx
  obtain ⟨rfl, rfl⟩ := Prod.mk.inj (Except.ok.inj ((h w).symm.trans hx))
  exact ⟨v, h v, hR⟩

theorem Respects.pure (a : α) : Respects R (pure a : PyM α) := .of_const fun _ => rfl

theorem Respects.raise (e : PyErr) : Respects R (raise e : PyM α) := .of_const fun _ => rfl

theorem Respects.ofExcept (r : Except PyErr α) : Respects R (ofExcept r) := .of_const fun _ => rfl

theorem Respects.lift (x : Exec α) : Respects R (lift x) := by
  intro w v r w' hR h
  obtain ⟨a, hx, rfl, rfl⟩ := lift_eq_ok.mp h
  exact ⟨v, lift_eq_ok.mpr ⟨a, hx, rfl, rfl⟩, hR⟩

/-- **One after the other.** -/
theorem Respects.bind (hx : Respects R x) (hf : ∀ a, Respects R (f a)) :
    Respects R (x >>= f) := by
  intro w v r w' hR h
  rcases hxw : x w with fault | ⟨e | a, w₁⟩
  · rw [bind_of_fault hxw] at h
    cases h
  · rw [bind_of_error hxw] at h
    cases h
    obtain ⟨v', hv, hR'⟩ := hx w v _ _ hR hxw
    exact ⟨v', bind_of_error hv, hR'⟩
  · rw [bind_of_ok hxw] at h
    obtain ⟨v₁, hv, hR₁⟩ := hx w v _ _ hR hxw
    obtain ⟨v', hv', hR'⟩ := hf a w₁ v₁ r w' hR₁ h
    exact ⟨v', (bind_of_ok hv).trans hv', hR'⟩

/-- The image of what is returned. -/
theorem Respects.map (hx : Respects R x) (g : α → β) : Respects R (g <$> x) :=
  hx.bind fun a => .pure (g a)

end PyM

/-! ## Every method -/

section Methods

variable {R : World → World → Prop} {refs : List HandleRef} {mine : ℕ → Prop} {α β : Type}
  {self child : HandleRef} {t : ℕ} (hM : World.Mirror R refs mine)
include hM

/-- Looking up a handle. -/
theorem World.Mirror.handle_bind {g : Handle → PyM β} (hself : self ∈ refs)
    (hg : ∀ h : Handle, mine h.tree → (g h).Respects R) : (PyM.handle self >>= g).Respects R := by
  intro w v r w' hR hcall
  obtain ⟨h, hh, hrest⟩ := PyM.exists_of_handle_bind hcall
  obtain ⟨hmine, hv⟩ := hM.handle hR hself hh
  obtain ⟨v', hv', hR'⟩ := hg h hmine w v r w' hR hrest
  exact ⟨v', (PyM.bind_of_ok (PyM.handle_apply hv)).trans hv', hR'⟩

/-- Looking up a tree. -/
theorem World.Mirror.treeAt_respects (ht : mine t) : (PyM.treeAt t).Respects R := by
  intro w v r w' hR hcall
  obtain ⟨tree, htree, rfl, rfl⟩ := PyM.treeAt_eq_ok.mp hcall
  exact ⟨v, PyM.treeAt_apply (hM.treeAt hR ht htree), hR⟩

/-- A method that looks up its receiver. -/
theorem World.Mirror.receiver {g : Handle → Tree → PyM β} (hself : self ∈ refs)
    (hg : ∀ h tree, mine h.tree → (g h tree).Respects R) : (do
      let h ← PyM.handle self
      let tree ← PyM.treeAt h.tree
      if h.isStale tree then PyM.raise staleError else g h tree).Respects R := by
  refine hM.handle_bind hself fun h hmine => .bind (hM.treeAt_respects hmine) fun tree => ?_
  split
  · exact .raise _
  · exact hg h tree hmine

/-- A method that reads its tree. -/
theorem World.Mirror.withTree (hself : self ∈ refs)
    (f : Tree → NodeId → Exec (Except PyErr α)) : (SExp.withTree self f).Respects R :=
  hM.receiver hself fun _ _ _ => .bind (.lift _) fun _ => .ofExcept _

/-- A method that writes its tree. -/
theorem World.Mirror.withTreeMut (hself : self ∈ refs)
    (f : Tree → NodeId → Exec (Except PyErr α × Tree)) : (SExp.withTreeMut self f).Respects R := by
  refine hM.receiver hself fun h tree hmine => .bind (.lift _) fun (result, tree') => ?_
  refine .bind ?_ fun _ => .bind (.ofExcept _) fun a => .bind ?_ fun _ => .pure a
  · intro w v r w' hR hset
    cases hset
    exact ⟨_, rfl, hM.setTree tree' hR hmine⟩
  · unfold SExp.refresh
    split
    · intro w v r w' hR hset
      cases hset
      exact ⟨_, rfl, hM.setHandle hR hself hmine⟩
    · exact .pure _

/-- The handles of two arguments of the same tree. -/
theorem World.Mirror.sameTree {g : Handle → Handle → PyM β} (hself : self ∈ refs)
    (hchild : child ∈ refs) (hg : ∀ h c : Handle, mine h.tree → (g h c).Respects R) : (do
      let h ← PyM.handle self
      let c ← PyM.handle child
      assertSameTree h.tree c.tree
      g h c).Respects R := by
  refine hM.handle_bind hself fun h hmine => hM.handle_bind hchild fun c _ => .bind ?_ fun _ =>
    hg h c hmine
  unfold assertSameTree
  split
  · exact .raise _
  · exact .pure _

/-- The handle of an optional argument. -/
theorem World.Mirror.afterHandle {after : Option HandleRef} (hafter : ∀ a ∈ after, a ∈ refs) :
    (SExp.afterHandle t after).Respects R := by
  cases after with
  | none => exact .pure _
  | some after =>
      refine hM.handle_bind (hafter after rfl) fun a _ => .bind ?_ fun _ => .pure _
      unfold assertSameTree
      split
      · exact .raise _
      · exact .pure _

/-- `repr`. -/
theorem World.Mirror.repr (hself : self ∈ refs) (fuel : ℕ) : (SExp.repr fuel self).Respects R := by
  refine hM.receiver hself fun h tree _ => .bind (.lift _) fun bare => ?_
  split
  · exact .pure _
  · split
    · exact .pure _
    · exact hM.withTreeMut hself _

/-- `==` with a handle. -/
theorem World.Mirror.eq (hself : self ∈ refs) (hchild : child ∈ refs) (fuel : ℕ) :
    (SExp.eq fuel self (.sexp child)).Respects R := by
  refine hM.handle_bind hself fun h hmine => hM.handle_bind hchild fun o hmine' => ?_
  split
  · refine .bind (hM.treeAt_respects hmine) fun tree => ?_
    split
    · exact .raise _
    · exact .lift _
  · refine .bind (hM.treeAt_respects hmine) fun tree => ?_
    split
    · exact .raise _
    · refine .bind (hM.treeAt_respects hmine') fun tree' => ?_
      split
      · exact .raise _
      · exact .lift _

/-- `in`. -/
theorem World.Mirror.contains (hself : self ∈ refs) {item : PyArg}
    (hitem : ∀ ref ∈ item.handles, ref ∈ refs) (fuel : ℕ) :
    (SExp.contains fuel self item).Respects R := by
  refine hM.receiver hself fun h tree _ => ?_
  cases item with
  | sexp other =>
      refine hM.handle_bind (hitem other List.mem_cons_self) fun o _ => ?_
      split
      · exact .pure _
      · split
        · exact .raise _
        · exact .bind (.lift _) fun _ => .pure _
  | str value => exact .bind (.lift _) fun _ => .pure _
  | object => exact .pure _

/-- A method that attaches. -/
theorem World.Mirror.attach (hself : self ∈ refs) (hchild : child ∈ refs)
    (op : Handle → Tree → NodeId → Exec Tree) : (do
      let h ← PyM.handle self
      let c ← PyM.handle child
      assertSameTree h.tree c.tree
      SExp.withTreeMut self fun tree node => do
        return ((.ok () : Except PyErr Unit), ← op c tree node)).Respects R :=
  hM.sameTree hself hchild fun _ _ _ => hM.withTreeMut hself _

/-- `insert_after`. -/
theorem World.Mirror.insertAfter {after : Option HandleRef} (hself : self ∈ refs)
    (hchild : child ∈ refs) (hafter : ∀ a ∈ after, a ∈ refs) (fuel : ℕ) :
    (SExp.insertAfter fuel self after child).Respects R :=
  hM.sameTree hself hchild fun _ _ _ => .bind (hM.afterHandle hafter) fun _ =>
    hM.withTreeMut hself _

end Methods

/-- Whether a call may create objects. -/
def Call.creates : Call → Bool
  | .parse _ | .new | .getItem _ _ | .iter _ | .next _ | .head _ | .tail _ | .parent _
  | .newAtom _ _ | .newList _ | .clone _ | .extract _ => true
  | _ => false

variable {R : World → World → Prop} {mine : ℕ → Prop} {c : Call}

/-- **A call that creates nothing** does the same in two worlds with the objects that it names. -/
theorem World.Mirror.call_respects (hM : World.Mirror R c.handles mine) (hc : c.creates = false)
    (fuel : ℕ) : (call fuel c).Respects R := by
  cases c with
  | repr self => exact (hM.repr (by simp [Call.handles]) fuel).map _
  | len self | isAtom self | value self => exact (hM.withTree (by simp [Call.handles]) _).map _
  | eq self other =>
      cases other with
      | sexp other =>
          exact (hM.eq (by simp [Call.handles]) (by simp [Call.handles, PyArg.handles]) fuel).map _
      | str text | object => exact .map (.pure _) _
  | contains self item =>
      exact (hM.contains (by simp [Call.handles]) (fun ref => List.mem_cons_of_mem _) fuel).map _
  | setValue self value | remove self => exact (hM.withTreeMut (by simp [Call.handles]) _).map _
  | append self child | prepend self child =>
      exact (hM.attach (by simp [Call.handles]) (by simp [Call.handles]) _).map _
  | insertAfter self after child =>
      refine (hM.insertAfter (by simp [Call.handles]) (by simp [Call.handles]) ?_ fuel).map _
      intro a ha
      simp [Call.handles, Option.mem_def.mp ha]
  | _ => cases hc

/-! ## Calls that create objects -/

section Creating

variable {refs : List HandleRef} {iters : List IterRef} {α : Type} {self : HandleRef} {t : ℕ}
  (hM : World.Mirror R refs mine) (hC : World.CreatesAlike R iters mine)
include hC

/-- Creating handles. -/
theorem World.CreatesAlike.fromSharedAll (ht : mine t) (nodes : List NodeId) (version : UInt64) :
    (PyM.fromSharedAll t nodes version).Respects R := by
  intro w v r w' hR hcall
  cases hcall
  refine ⟨_, by rw [PyM.fromSharedAll, hC.length_handles hR], ?_⟩
  have hmine : ∀ h ∈ nodes.map fun node => (⟨t, node, version⟩ : Handle), mine h.tree := by
    simp [ht]
  simpa [World.extend] using hC.handles hR hmine

/-- Creating a handle. -/
theorem World.CreatesAlike.fromShared (ht : mine t) (node : NodeId) (version : UInt64) :
    (PyM.fromShared t node version).Respects R := by
  intro w v r w' hR hcall
  cases hcall
  refine ⟨_, by rw [PyM.fromShared, hC.length_handles hR], ?_⟩
  have hmine : ∀ h ∈ [(⟨t, node, version⟩ : Handle)], mine h.tree := by simp [ht]
  simpa [World.extend] using hC.handles hR hmine

/-- Creating a tree. -/
theorem World.CreatesAlike.fromTree (tree : Tree) : (PyM.fromTree tree).Respects R := by
  intro w v r w' hR hcall
  cases hcall
  exact ⟨v.push tree, by rw [PyM.fromTree, hC.length_handles hR]; rfl, hC.push tree hR⟩

include hM

/-- `next`. -/
theorem World.Mirror.next {ref : IterRef} (href : ref ∈ iters) :
    (SExpIter.step ref).Respects R := by
  intro w v r w' hR hcall
  -- the iterator that is named is the same
  rcases hit : w.iters[ref]? with _ | it
  · have hfault : SExpIter.step ref w = .error .noObject :=
      PyM.bind_of_fault (by rw [PyM.iter, hit])
    rw [hfault] at hcall
    cases hcall
  obtain ⟨hmine, hv⟩ := hC.iter hR href hit
  have hrest : ∀ g : SExpIter → PyM (Option HandleRef), (g it).Respects R →
      (PyM.iter ref >>= g) w = .ok (r, w') →
      ∃ v', (PyM.iter ref >>= g) v = .ok (r, v') ∧ R w' v' := by
    intro g hg h
    rw [PyM.bind_of_ok (PyM.iter_apply hit)] at h
    rw [PyM.bind_of_ok (PyM.iter_apply hv)]
    exact hg w v r w' hR h
  refine hrest _ ?_ hcall
  split
  · exact .pure _
  · refine .bind (hM.treeAt_respects hmine) fun tree => ?_
    split
    · exact .raise _
    · refine .bind (.lift _) fun node => .bind ?_ fun _ => (hC.fromShared hmine _ _).map _
      intro w v r w' hR hset
      cases hset
      exact ⟨_, rfl, hC.setIter hR hmine⟩

/-- Creating a handle in the tree of the receiver. -/
theorem World.Mirror.share (hself : self ∈ refs) (node : NodeId) (version : UInt64) :
    (SExp.share self node version).Respects R :=
  hM.handle_bind hself fun _ hmine => hC.fromShared hmine node version

/-- Creating an iterator in the tree of the receiver. -/
theorem World.Mirror.shareIter (hself : self ∈ refs) (next : Option NodeId) (version : UInt64) :
    (SExp.shareIter self next version).Respects R := by
  refine hM.handle_bind hself fun h hmine => ?_
  intro w v r w' hR hcall
  cases hcall
  refine ⟨_, by rw [PyM.newIter, hC.length_iters hR], ?_⟩
  have hmine : mine (⟨h.tree, next, version⟩ : SExpIter).tree := hmine
  simpa [World.extend] using hC.newIter hR hmine

/-- `[]`. -/
theorem World.Mirror.getItem (hself : self ∈ refs) (key : PyKey) (fuel : ℕ) :
    (SExp.getItem fuel self key).Respects R := by
  cases key with
  | int index =>
      rw [SExp.getItem]
      split
      · exact .raise _
      · exact .bind (hM.withTree hself _) fun _ => (hM.share hC hself _ _).map _
  | str key => exact .bind (hM.withTree hself _) fun _ => (hM.share hC hself _ _).map _
  | slice _ _ _ | object _ =>
      exact .bind (hM.withTree hself _) fun _ => .map
        (hM.handle_bind hself fun _ hmine => hC.fromSharedAll hmine _ _) _

/-- `parent`. -/
theorem World.Mirror.parent (hself : self ∈ refs) : (SExp.parent self).Respects R := by
  refine .bind (hM.withTree hself _) fun (parent, version) => ?_
  cases parent with
  | none => exact .pure _
  | some id => exact (hM.share hC hself id version).map _

/-- A method that writes the tree of its receiver, and creates a handle in it. -/
theorem World.Mirror.alloc (hself : self ∈ refs)
    (f : Tree → NodeId → Exec (Except PyErr (NodeId × UInt64) × Tree)) : (do
      let (id, version) ← SExp.withTreeMut self f
      SExp.share self id version).Respects R :=
  .bind (hM.withTreeMut hself f) fun _ => hM.share hC hself _ _

end Creating

/-- **A call does the same in two worlds** with the objects that it names, when as many have been
created. -/
theorem World.Mirror.call_respects_creating (hM : World.Mirror R c.handles mine)
    (hC : World.CreatesAlike R c.iters mine) (fuel : ℕ) : (call fuel c).Respects R := by
  cases c with
  | parse source =>
      refine .map (.bind ?_ fun result => ?_) _
      · cases source with
        | str text | bytes text => exact .lift _
        | object => exact .raise _
      · split
        · exact .raise _
        · exact hC.fromTree _
  | new => exact .map (.bind (.lift _) fun tree => hC.fromTree tree) _
  | getItem self key => exact (hM.getItem hC (by simp [Call.handles]) key fuel).map _
  | iter self | tail self =>
      exact .map (.bind (hM.withTree (by simp [Call.handles]) _) fun _ =>
        hM.shareIter hC (by simp [Call.handles]) _ _) _
  | next it => exact (hM.next hC (by simp [Call.iters])).map _
  | head self =>
      exact .map (.bind (hM.withTree (by simp [Call.handles]) _) fun _ =>
        hM.share hC (by simp [Call.handles]) _ _) _
  | parent self => exact (hM.parent hC (by simp [Call.handles])).map _
  | newAtom self value | newList self => exact (hM.alloc hC (by simp [Call.handles]) _).map _
  | clone self =>
      exact .map (.bind (hM.withTree (by simp [Call.handles]) _) fun tree => hC.fromTree tree) _
  | extract self =>
      exact .map (.bind (hM.withTreeMut (by simp [Call.handles]) _) fun tree => hC.fromTree tree) _
  | _ => exact hM.call_respects rfl fuel

/-! ## Worlds with the same objects of some trees -/

/-- **Two worlds with the same objects** of the trees that satisfy `mine`. -/
structure World.Same (mine : ℕ → Prop) (w v : World) : Prop where
  /-- The trees. -/
  trees : ∀ t, mine t → v.trees[t]? = w.trees[t]?
  /-- The handles to their nodes. -/
  handles : ∀ (ref : ℕ) (h : Handle), mine h.tree →
    (v.handles[ref]? = some h ↔ w.handles[ref]? = some h)
  /-- The iterators over their nodes. -/
  iters : ∀ (ref : ℕ) (it : SExpIter), mine it.tree →
    (v.iters[ref]? = some it ↔ w.iters[ref]? = some it)

/-- Two worlds with as many objects. -/
structure World.SameSize (w v : World) : Prop where
  /-- As many trees. -/
  trees : v.trees.length = w.trees.length
  /-- As many handles. -/
  handles : v.handles.length = w.handles.length
  /-- As many iterators. -/
  iters : v.iters.length = w.iters.length

section Lists

variable {γ : Type} {l l' : List γ} {p : γ → Prop} {x y z : γ} {i j : ℕ}

/-- What satisfies `p` is at the same places of a list, when only others are added. -/
theorem getElem?_append_iff (hl : ∀ y ∈ l', ¬ p y) (hx : p x) :
    (l ++ l')[i]? = some x ↔ l[i]? = some x := by
  rw [List.getElem?_append]
  split
  · rfl
  · rename_i hi
    rw [List.getElem?_eq_none (not_lt.mp hi)]
    refine iff_of_false (fun hmem => hl x (List.mem_of_getElem? hmem) hx) (by simp)

/-- What satisfies `p` is at the same places of a list, when another element is replaced. -/
theorem getElem?_set_iff (hi : l[i]? = some y) (hy : ¬ p y) (hz : ¬ p z) (hx : p x) :
    (l.set i z)[j]? = some x ↔ l[j]? = some x := by
  rw [List.getElem?_set]
  split
  · rename_i hij
    subst hij
    rw [hi, if_pos (List.getElem?_eq_some_iff.mp hi).1]
    refine iff_of_false ?_ ?_
    · rintro ⟨⟩
      exact hz hx
    · rintro ⟨⟩
      exact hy hx
  · rfl

end Lists

namespace World.Same

variable {w v u : World} {hs : List Handle} {its : List SExpIter} {self : HandleRef} {h : Handle}

theorem refl (mine : ℕ → Prop) (w : World) : w.Same mine w :=
  ⟨fun _ _ => rfl, fun _ _ _ => .rfl, fun _ _ _ => .rfl⟩

theorem symm (hs : w.Same mine v) : v.Same mine w where
  trees t ht := (hs.trees t ht).symm
  handles ref h hh := (hs.handles ref h hh).symm
  iters ref it hit := (hs.iters ref it hit).symm

theorem trans (hs : w.Same mine v) (hs' : v.Same mine u) : w.Same mine u where
  trees t ht := (hs'.trees t ht).trans (hs.trees t ht)
  handles ref h hh := (hs'.handles ref h hh).trans (hs.handles ref h hh)
  iters ref it hit := (hs'.iters ref it hit).trans (hs.iters ref it hit)

/-- Creating handles and iterators to other trees. -/
theorem extend (hhs : ∀ h ∈ hs, ¬ mine h.tree) (hits : ∀ it ∈ its, ¬ mine it.tree) :
    w.Same mine (w.extend hs its) where
  trees _ _ := rfl
  handles _ _ hh := getElem?_append_iff (p := fun h : Handle => mine h.tree) hhs hh
  iters _ _ hit := getElem?_append_iff (p := fun it : SExpIter => mine it.tree) hits hit

/-- Creating another tree. -/
theorem push (hnew : ¬ mine w.trees.length) (tree : Tree) : w.Same mine (w.push tree) where
  trees t ht := by
    have hne : t ≠ w.trees.length := fun heq => hnew (heq ▸ ht)
    rw [World.push, List.getElem?_append]
    split
    · rfl
    · rw [List.getElem?_eq_none (by simp; omega), List.getElem?_eq_none (by omega)]
  handles _ _ hh :=
    getElem?_append_iff (p := fun h : Handle => mine h.tree) (by simpa using hnew) hh
  iters _ _ _ := .rfl

/-- Writing another tree, through its handle. -/
theorem refreshed (hself : w.handles[self]? = some h) (hother : ¬ mine h.tree) (tree : Tree) :
    w.Same mine (w.refreshed self h tree) where
  trees t ht := List.getElem?_set_ne fun heq : h.tree = t => hother (heq ▸ ht)
  handles ref h' hh' := by
    rw [World.refreshed]
    split
    · exact getElem?_set_iff (p := fun h : Handle => mine h.tree) hself hother hother hh'
    · rfl
  iters _ _ _ := .rfl

/-- **Two worlds are the same** when they have the same objects of some trees, and the same objects
of the other trees. -/
theorem eq (hs : w.Same mine v) (hs' : w.Same (¬ mine ·) v) : w = v := by
  obtain ⟨trees, handles, iters⟩ := w
  obtain ⟨trees', handles', iters'⟩ := v
  have htrees : trees = trees' := List.ext_getElem? fun t => by
    by_cases ht : mine t
    · exact (hs.trees t ht).symm
    · exact (hs'.trees t ht).symm
  have hhandles : handles = handles' := List.ext_getElem? fun ref => Option.ext fun h => by
    by_cases hh : mine h.tree
    · exact (hs.handles ref h hh).symm
    · exact (hs'.handles ref h hh).symm
  have hiters : iters = iters' := List.ext_getElem? fun ref => Option.ext fun it => by
    by_cases hit : mine it.tree
    · exact (hs.iters ref it hit).symm
    · exact (hs'.iters ref it hit).symm
  rw [htrees, hhandles, hiters]

end World.Same

/-! ## What a call leaves alone -/

variable {w w' v w₀ : World} {l l' : CallResult} {D : Set ℕ} {events : List ApiEvent}

/-- The receiver is named. -/
theorem Call.self_mem_handles {self : HandleRef} (hself : c.self? = some self) :
    self ∈ c.handles := by
  cases c <;> cases hself <;> simp [Call.handles]

/-- **A call that names no object of the trees `D`**. -/
structure Call.Outside (D : Set ℕ) (w : World) (c : Call) : Prop where
  /-- The trees are there. -/
  old : ∀ t ∈ D, t < w.trees.length
  /-- The handles belong to other trees. -/
  handles : ∀ ref ∈ c.handles, ∀ h, w.handles[ref]? = some h → h.tree ∉ D
  /-- The iterators belong to other trees. -/
  iters : ∀ ref ∈ c.iters, ∀ it, w.iters[ref]? = some it → it.tree ∉ D

/-- **A call that creates nothing, and names objects of the trees `D` only**. -/
structure Call.Inside (D : Set ℕ) (w : World) (c : Call) : Prop where
  /-- No object is created. -/
  quiet : c.creates = false
  /-- The handles exist, and belong to the trees. -/
  handles : ∀ ref ∈ c.handles, ∃ h, w.handles[ref]? = some h ∧ h.tree ∈ D

/-- **A call leaves alone what it does not name.** -/
theorem ApiStep.same (hstep : ApiStep w l w')
    (hhandles : ∀ ref ∈ l.call.handles, ∀ h, w.handles[ref]? = some h → ¬ mine h.tree)
    (hiters : ∀ ref ∈ l.call.iters, ∀ it, w.iters[ref]? = some it → ¬ mine it.tree)
    (hnew : l.call.creates = true → ¬ mine w.trees.length) : w.Same mine w' := by
  rcases hstep.cases with ⟨-, rfl⟩ | ⟨fuel, a, -, heffect⟩
  · exact .refl mine w'
  have hreceiver : ∀ {self h tree}, l.call.self? = some self → w.Receives self h tree →
      ¬ mine h.tree := fun hself hrec =>
    hhandles _ (Call.self_mem_handles hself) _ hrec.handle_eq
  generalize l.call = c at heffect hhandles hiters hnew hreceiver
  cases heffect with
  | observe _ hhs hits =>
      refine .extend (fun h hh => ?_) fun it hit => ?_
      · obtain ⟨self, k, tree, hself, hrec, heq, -⟩ := hhs h hh
        exact heq ▸ hreceiver hself hrec
      · obtain ⟨⟨self, k, tree, hself, hrec, heq, -⟩, -⟩ := hits it hit
        exact heq ▸ hreceiver hself hrec
  | @next ref it current tree node hit hnext htree hversion hnode =>
      have hother := hiters ref List.mem_cons_self it hit
      have hset : w.Same mine
          { w with iters := w.iters.set ref { it with next := node.nextSibling } } :=
        ⟨fun _ _ => rfl, fun _ _ _ => .rfl, fun _ _ hmine =>
          getElem?_set_iff (p := fun it : SExpIter => mine it.tree) hit hother hother hmine⟩
      exact hset.trans (.extend (by simpa using hother) (by simp))
  | create _ hcreate => exact .push (hnew (by cases hcreate <;> rfl)) _
  | write hself hrec => exact .refreshed hrec.handle_eq (hreceiver hself hrec) _
  | alloc hself hrec =>
      have hother := hreceiver hself hrec
      exact (World.Same.refreshed hrec.handle_eq hother _).trans
        (.extend (by simpa using hother) (by simp))
  | extract hrec =>
      refine (World.Same.refreshed hrec.handle_eq (hreceiver rfl hrec) _).trans (.push ?_ _)
      simpa [World.refreshed] using hnew rfl

/-- **A call that creates nothing** leaves as many objects. -/
theorem ApiStep.sameSize (hstep : ApiStep w l w') (hquiet : l.call.creates = false) :
    w.SameSize w' := by
  obtain ⟨fuel, hcall⟩ := hstep
  -- a world mirrors itself, and writing it keeps its size
  have hM : World.Mirror (fun u v => v = u ∧ w.SameSize u) l.call.handles fun _ => True :=
    { handle := fun ⟨heq, _⟩ _ hh => ⟨trivial, heq ▸ hh⟩
      treeAt := fun ⟨heq, _⟩ _ ht => heq ▸ ht
      setTree := fun tree ⟨heq, hsize⟩ _ =>
        ⟨heq ▸ rfl, (List.length_set ..).trans hsize.trees, hsize.handles, hsize.iters⟩
      setHandle := fun ⟨heq, hsize⟩ _ _ =>
        ⟨heq ▸ rfl, hsize.trees, (List.length_set ..).trans hsize.handles, hsize.iters⟩ }
  obtain ⟨_, -, -, hsize⟩ := hM.call_respects hquiet fuel w w _ w' ⟨rfl, rfl, rfl, rfl⟩ hcall
  exact hsize

/-! ## Interleavings -/

/-- **Worlds in which a call finds the same objects**, all of them of trees that satisfy `mine`. -/
structure World.Finds (mine : ℕ → Prop) (c : Call) (w v : World) : Prop where
  /-- The objects of these trees are the same. -/
  same : w.Same mine v
  /-- The handles that are named belong to these trees. -/
  handles : ∀ ref ∈ c.handles, ∀ h, w.handles[ref]? = some h → mine h.tree
  /-- The handles that are named exist in both worlds, or in none. -/
  exist : ∀ ref ∈ c.handles, ref < v.handles.length ↔ ref < w.handles.length

/-- Writing what a call finds keeps that it finds the same. -/
theorem World.finds_mirror : World.Mirror (World.Finds mine c) c.handles mine where
  handle hfinds href hh := by
    have hmine := hfinds.handles _ href _ hh
    exact ⟨hmine, (hfinds.same.handles _ _ hmine).mpr hh⟩
  treeAt hfinds ht htree := (hfinds.same.trees _ ht).trans htree
  setTree {w v t} tree hfinds ht := by
    refine ⟨⟨fun t' ht' => ?_, hfinds.same.handles, hfinds.same.iters⟩, hfinds.handles,
      hfinds.exist⟩
    have hlength : t < v.trees.length ↔ t < w.trees.length := by
      rw [← not_le, ← not_le, ← List.getElem?_eq_none_iff, ← List.getElem?_eq_none_iff,
        hfinds.same.trees t ht]
    simp only [List.getElem?_set, hfinds.same.trees t' ht', hlength]
  setHandle {w v ref h} hfinds href hmine := by
    refine ⟨⟨hfinds.same.trees, fun ref' h' hh' => ?_, hfinds.same.iters⟩,
      fun ref' href' h' hh' => ?_, fun ref' href' => ?_⟩
    · simp only [List.getElem?_set, hfinds.exist ref href]
      split
      · rfl
      · exact hfinds.same.handles ref' h' hh'
    · rw [List.getElem?_set] at hh'
      split at hh'
      · split at hh'
        · cases hh'
          exact hmine
        · cases hh'
      · exact hfinds.handles ref' href' h' hh'
    · simpa using hfinds.exist ref' href'

/-- Worlds of the same size in which a call finds the same objects. -/
structure World.FindsAll (mine : ℕ → Prop) (c : Call) (w v : World) : Prop
    extends World.Finds mine c w v where
  /-- As many objects. -/
  size : w.SameSize v
  /-- The iterators that are named belong to these trees. -/
  iters : ∀ ref ∈ c.iters, ∀ it, w.iters[ref]? = some it → mine it.tree
  /-- New trees are among these trees. -/
  fresh : ∀ t, w.trees.length ≤ t → mine t

/-- Writing what a call finds keeps that it finds everything. -/
theorem World.findsAll_mirror : World.Mirror (World.FindsAll mine c) c.handles mine where
  handle hfinds := World.finds_mirror.handle hfinds.toFinds
  treeAt hfinds := World.finds_mirror.treeAt hfinds.toFinds
  setTree tree hfinds ht :=
    { toFinds := World.finds_mirror.setTree tree hfinds.toFinds ht
      size := ⟨by simp [hfinds.size.trees], hfinds.size.handles, hfinds.size.iters⟩
      iters := hfinds.iters
      fresh := by simpa using hfinds.fresh }
  setHandle hfinds href hmine :=
    { toFinds := World.finds_mirror.setHandle hfinds.toFinds href hmine
      size := ⟨hfinds.size.trees, by simp [hfinds.size.handles], hfinds.size.iters⟩
      iters := hfinds.iters
      fresh := hfinds.fresh }

/-- What is added to two lists of the same length is at the same place. -/
theorem getElem?_append_congr {γ : Type} {l l' : List γ} {x : γ} {i : ℕ} (new : List γ)
    (hlength : l'.length = l.length) (h : l'[i]? = some x ↔ l[i]? = some x) :
    (l' ++ new)[i]? = some x ↔ (l ++ new)[i]? = some x := by
  rw [List.getElem?_append, List.getElem?_append, hlength]
  split
  · exact h
  · rfl

/-- What a call finds stays when both worlds get another object of these trees. -/
theorem World.findsAll_creates : World.CreatesAlike (World.FindsAll mine c) c.iters mine where
  length_handles hfinds := hfinds.size.handles
  length_iters hfinds := hfinds.size.iters
  iter hfinds href hit := by
    have hmine := hfinds.iters _ href _ hit
    exact ⟨hmine, (hfinds.same.iters _ _ hmine).mpr hit⟩
  setIter {w v ref it} hfinds hmine :=
    { same := ⟨hfinds.same.trees, hfinds.same.handles, fun ref' it' hit' => by
        simp only [List.getElem?_set, hfinds.size.iters]
        split
        · rfl
        · exact hfinds.same.iters ref' it' hit'⟩
      handles := hfinds.handles
      exist := hfinds.exist
      size := ⟨hfinds.size.trees, hfinds.size.handles, by simp [hfinds.size.iters]⟩
      iters := fun ref' href' it' hit' => by
        rw [List.getElem?_set] at hit'
        split at hit'
        · split at hit'
          · cases hit'
            exact hmine
          · cases hit'
        · exact hfinds.iters ref' href' it' hit'
      fresh := hfinds.fresh }
  handles {w v hs} hfinds hhs :=
    { same := ⟨hfinds.same.trees, fun ref h hmine =>
        getElem?_append_congr hs hfinds.size.handles (hfinds.same.handles ref h hmine),
        by simpa [World.extend] using hfinds.same.iters⟩
      handles := fun ref href h hh => by
        rw [World.extend, List.getElem?_append] at hh
        split at hh
        · exact hfinds.handles ref href h hh
        · exact hhs h (List.mem_of_getElem? hh)
      exist := by simp [World.extend, hfinds.size.handles]
      size := ⟨hfinds.size.trees, by simp [World.extend, hfinds.size.handles],
        by simp [World.extend, hfinds.size.iters]⟩
      iters := by simpa [World.extend] using hfinds.iters
      fresh := hfinds.fresh }
  newIter {w v it} hfinds hmine :=
    { same := ⟨hfinds.same.trees, by simpa [World.extend] using hfinds.same.handles,
        fun ref it' hmine' =>
          getElem?_append_congr [it] hfinds.size.iters (hfinds.same.iters ref it' hmine')⟩
      handles := by simpa [World.extend] using hfinds.handles
      exist := by simp [World.extend, hfinds.size.handles]
      size := ⟨hfinds.size.trees, by simp [World.extend, hfinds.size.handles],
        by simp [World.extend, hfinds.size.iters]⟩
      iters := fun ref href it' hit' => by
        rw [World.extend, List.getElem?_append] at hit'
        split at hit'
        · exact hfinds.iters ref href it' hit'
        · obtain rfl := List.mem_singleton.mp (List.mem_of_getElem? hit')
          exact hmine
      fresh := hfinds.fresh }
  push {w v} tree hfinds :=
    { same := ⟨fun t ht => Option.ext fun x =>
          getElem?_append_congr [tree] hfinds.size.trees (by rw [hfinds.same.trees t ht]),
        fun ref h hmine => by
          rw [World.push, World.push, hfinds.size.trees]
          exact getElem?_append_congr _ hfinds.size.handles (hfinds.same.handles ref h hmine),
        hfinds.same.iters⟩
      handles := fun ref href h hh => by
        rw [World.push, List.getElem?_append] at hh
        split at hh
        · exact hfinds.handles ref href h hh
        · obtain rfl := List.mem_singleton.mp (List.mem_of_getElem? hh)
          exact hfinds.fresh _ le_rfl
      exist := by simp [World.push, hfinds.size.handles]
      size := ⟨by simp [World.push, hfinds.size.trees], by simp [World.push, hfinds.size.handles],
        hfinds.size.iters⟩
      iters := hfinds.iters
      fresh := fun t ht => hfinds.fresh t (Nat.le_of_succ_le (by simpa [World.push] using ht)) }

/-- A call that creates nothing names no iterator. -/
theorem Call.iters_of_quiet (hquiet : c.creates = false) : c.iters = [] := by
  cases c <;> first | rfl | cases hquiet

/-- What a call that creates nothing leaves alone. -/
theorem Call.Inside.same (hinside : l.call.Inside D w) (hstep : ApiStep w l w') :
    w.Same (· ∉ D) w' := by
  refine hstep.same (fun ref href h hh => ?_) (fun ref href => ?_) (by simp [hinside.quiet])
  · obtain ⟨h', hh', hmem⟩ := hinside.handles ref href
    obtain rfl := Option.some.inj (hh.symm.trans hh')
    exact not_not.mpr hmem
  · rw [Call.iters_of_quiet hinside.quiet] at href
    cases href

/-- What a call that names none of the trees leaves alone. -/
theorem Call.Outside.same (houtside : l.call.Outside D w) (hstep : ApiStep w l w') :
    w.Same (· ∈ D) w' :=
  hstep.same houtside.handles houtside.iters fun _ hmem => (houtside.old _ hmem).false

/-- A call that names none of the trees named none of them before they have been written. -/
theorem Call.Outside.of_same (houtside : c.Outside D w') (hsame : w.Same (· ∉ D) w')
    (hsize : w.SameSize w') : c.Outside D w where
  old t ht := hsize.trees ▸ houtside.old t ht
  handles ref href h hh hmem := by
    have hlt : ref < w'.handles.length := hsize.handles ▸ (List.getElem?_eq_some_iff.mp hh).1
    have hother := houtside.handles ref href _ (List.getElem?_eq_getElem hlt)
    have hsame := (hsame.handles ref _ hother).mp (List.getElem?_eq_getElem hlt)
    exact hother (Option.some.inj (hsame.symm.trans hh) ▸ hmem)
  iters ref href it hit hmem := by
    have hlt : ref < w'.iters.length := hsize.iters ▸ (List.getElem?_eq_some_iff.mp hit).1
    have hother := houtside.iters ref href _ (List.getElem?_eq_getElem hlt)
    have hsame := (hsame.iters ref _ hother).mp (List.getElem?_eq_getElem hlt)
    exact hother (Option.some.inj (hsame.symm.trans hit) ▸ hmem)

/-- **Two calls on different trees can be done in the other order**, when the first one creates
nothing: they give the same results, and lead to the same objects. -/
theorem ApiStep.swap (hinside : l.call.Inside D w) (houtside : l'.call.Outside D w')
    (hstep : ApiStep w l w') (hstep' : ApiStep w' l' v) :
    ∃ w₁, l'.call.Outside D w ∧ ApiStep w l' w₁ ∧ l.call.Inside D w₁ ∧ ApiStep w₁ l v := by
  have hsame := hinside.same hstep
  have hsize := hstep.sameSize hinside.quiet
  have houtside₀ := houtside.of_same hsame hsize
  -- the second call finds the same before the first one
  have hfinds : w'.FindsAll (· ∉ D) l'.call w :=
    { same := hsame.symm
      handles := houtside.handles
      exist := by simp [hsize.handles]
      size := ⟨hsize.trees.symm, hsize.handles.symm, hsize.iters.symm⟩
      iters := houtside.iters
      fresh := fun t ht hmem => (houtside.old t hmem).not_ge ht }
  obtain ⟨fuel', hcall'⟩ := id hstep'
  obtain ⟨w₁, hcall₁, hfinds₁⟩ :=
    World.findsAll_mirror.call_respects_creating World.findsAll_creates fuel' w' w _ v hfinds hcall'
  have hstep₁ : ApiStep w l' w₁ := ⟨fuel', hcall₁⟩
  have hsame₁ := houtside₀.same hstep₁
  -- and the first call after the second one
  have hinside₁ : l.call.Inside D w₁ := ⟨hinside.quiet, fun ref href => by
    obtain ⟨h, hh, hmem⟩ := hinside.handles ref href
    exact ⟨h, (hsame₁.handles ref h hmem).mpr hh, hmem⟩⟩
  have hfinds' : w.Finds (· ∈ D) l.call w₁ :=
    { same := hsame₁
      handles := fun ref href h hh => by
        obtain ⟨h', hh', hmem⟩ := hinside.handles ref href
        exact Option.some.inj (hh'.symm.trans hh) ▸ hmem
      exist := fun ref href => by
        obtain ⟨h, hh, hmem⟩ := hinside.handles ref href
        have hh₁ := (hsame₁.handles ref h hmem).mpr hh
        exact iff_of_true (List.getElem?_eq_some_iff.mp hh₁).1 (List.getElem?_eq_some_iff.mp hh).1 }
  obtain ⟨fuel, hcall⟩ := id hstep
  obtain ⟨w₂, hcall₂, hfinds₂⟩ :=
    World.finds_mirror.call_respects hinside.quiet fuel w w₁ _ w' hfinds' hcall
  have hstep₂ : ApiStep w₁ l w₂ := ⟨fuel, hcall₂⟩
  -- either way, the trees are what the first call has made of them, and the rest is the second's
  have hin : v.Same (· ∈ D) w₂ := (houtside.same hstep').symm.trans hfinds₂.same
  have hout : v.Same (· ∉ D) w₂ := hfinds₁.same.trans (hinside₁.same hstep₂)
  rw [hin.eq hout]
  exact ⟨w₁, houtside₀, hstep₁, hinside₁, hstep₂⟩

open Classical in
/-- **Interleavings of calls on different trees agree.** Take a run in which every call either names
objects of some trees `D` only and creates nothing, or names none of their objects. Then the calls
of the second kind, with the same results, form a run on their own, and those of the first kind,
with the same results, go on from its end and lead to the same objects. -/
theorem interleavings_agree (hD : ∀ t ∈ D, t < w₀.trees.length) (hrun : Run ApiStep w₀ events w)
    (hevents : ∀ e ∈ events, e.label.call.Inside D e.before ∨
      (∀ ref ∈ e.label.call.handles, ∀ h, e.before.handles[ref]? = some h → h.tree ∉ D) ∧
      ∀ ref ∈ e.label.call.iters, ∀ it, e.before.iters[ref]? = some it → it.tree ∉ D) :
    ∃ v events₁ events₂, Run ApiStep w₀ events₁ v ∧ Run ApiStep v events₂ w ∧
      events₁.map Event.label =
        (events.filter fun e => ¬ e.label.call.Inside D e.before).map Event.label ∧
      events₂.map Event.label =
        (events.filter fun e => e.label.call.Inside D e.before).map Event.label := by
  -- the trees stay
  have hold : ∀ e ∈ events, ∀ t ∈ D, t < e.before.trees.length := fun e he =>
    (hrun.invariant_around (P := fun w => ∀ t ∈ D, t < w.trees.length) hD
      (fun e he hbefore hstep t ht => by
        obtain ⟨tree', htree'⟩ := hstep.tree_stays (List.getElem?_eq_getElem (hbefore t ht))
        exact (List.getElem?_eq_some_iff.mp htree').1) e he).1
  have hswap : ∀ (w : World) l w' l' v, l.call.Inside D w → l'.call.Outside D w' →
      ApiStep w l w' → ApiStep w' l' v →
      ∃ w₁, l'.call.Outside D w ∧ ApiStep w l' w₁ ∧ l.call.Inside D w₁ ∧ ApiStep w₁ l v :=
    fun _ _ _ _ _ hinside houtside hstep hstep' => hstep.swap hinside houtside hstep'
  obtain ⟨v, events₁, events₂, hrun₁, hrun₂, -, hlabels⟩ :=
    hrun.partition hswap fun e he => (hevents e he).imp_right fun ⟨hhandles, hiters⟩ =>
      ⟨hold e he, hhandles, hiters⟩
  exact ⟨v, events₁, events₂, hrun₁, hrun₂, hlabels⟩

/-! ## Calls that change nothing -/

/-- Whether a call only looks at the objects. -/
def Call.looks : Call → Bool
  | .len _ | .eq _ _ | .contains _ _ | .isAtom _ | .value _ => true
  | _ => false

/-- A call that only looks leaves the objects as they are. -/
theorem Call.readOnly_of_looks (hlooks : c.looks = true) (fuel : ℕ) : (call fuel c).ReadOnly := by
  cases c with
  | len _ | isAtom _ | value _ => exact SExp.withTree_readOnly.bind fun _ => PyM.readOnly_pure _
  | eq self other => exact (SExp.eq_readOnly fuel self other).bind fun _ => PyM.readOnly_pure _
  | contains self item =>
      exact (SExp.contains_readOnly fuel self item).bind fun _ => PyM.readOnly_pure _
  | _ => cases hlooks

/-- Whether an event changes nothing: its call raises, or only looks. -/
def ApiEvent.idle (e : ApiEvent) : Bool := !e.label.result.isOk || e.label.call.looks

/-- **Calls that raise, and calls that only look, can be left out** of every run: what remains is a
run of the other calls, with the same results, and it leads to the same objects. -/
theorem idle_calls_erased (hrun : Run ApiStep w₀ events w) :
    Run ApiStep w₀ (events.filter fun e => !ApiEvent.idle e) w := by
  refine hrun.erase fun e _ hidle hstep => ?_
  obtain ⟨fuel, hcall⟩ := hstep
  rcases hresult : e.label.result with err | v
  · rw [hresult] at hcall
    exact call_atomic fuel _ _ _ _ hcall
  · have hlooks : e.label.call.looks = true := by
      simpa [ApiEvent.idle, hresult, Except.isOk, Except.toBool] using hidle
    exact Call.readOnly_of_looks hlooks fuel _ _ _ hcall

/-! ## Two trees -/

/-- The objects of `twoLists`, and those of another tree `u = SExp()`. -/
def twoTrees : World :=
  ⟨[looseLists, singleList], [⟨0, ⟨0⟩, 0⟩, ⟨0, ⟨1⟩, 0⟩, ⟨1, ⟨0⟩, 0⟩], []⟩

/-- The objects after `t.append(l)`. -/
def twoTreesNested : World :=
  ⟨[nestedLists, singleList], [⟨0, ⟨0⟩, 1⟩, ⟨0, ⟨1⟩, 0⟩, ⟨1, ⟨0⟩, 0⟩], []⟩

/-- The objects after `u.new_list()`. -/
def twoTreesDone : World :=
  ⟨[nestedLists, looseLists], [⟨0, ⟨0⟩, 1⟩, ⟨0, ⟨1⟩, 0⟩, ⟨1, ⟨0⟩, 0⟩, ⟨1, ⟨1⟩, 0⟩], []⟩

/-- `interleavings_agree` at the run `t.append(l); u.new_list()`: the list can be created first. -/
theorem interleavings_agree_twoTrees : ∃ v events₁ events₂,
    Run ApiStep twoTrees events₁ v ∧ Run ApiStep v events₂ twoTreesDone ∧
      events₁.map Event.label = [⟨.newList 2, .ok (.sexp 3)⟩] ∧
      events₂.map Event.label = [⟨.append 0 1, .ok .none⟩] := by
  have hfirst : ApiStep twoTrees ⟨.append 0 1, .ok .none⟩ twoTreesNested := ⟨0, rfl⟩
  have hsecond : ApiStep twoTreesNested ⟨.newList 2, .ok (.sexp 3)⟩ twoTreesDone := ⟨0, rfl⟩
  have hinside : (Call.append 0 1).Inside {0} twoTrees :=
    ⟨rfl, by simp [Call.handles, twoTrees]⟩
  have houtside : ¬ (Call.newList 2).Inside {0} twoTreesNested := fun h => by
    have := h.quiet
    cases this
  obtain ⟨v, events₁, events₂, hrun₁, hrun₂, hlabels₁, hlabels₂⟩ :=
    interleavings_agree (D := {0}) (by simp [twoTrees]) ((Run.nil.cons hfirst).cons hsecond)
      (by simp [hinside, Call.handles, Call.iters, twoTreesNested])
  refine ⟨v, events₁, events₂, hrun₁, hrun₂, ?_, ?_⟩
  · simpa [hinside, houtside] using hlabels₁
  · simpa [hinside, houtside] using hlabels₂

/-- `idle_calls_erased` at the run `t.append(l); len(t); t.remove()`, whose last call raises. -/
theorem idle_calls_erased_twoTrees :
    Run ApiStep twoTrees [⟨twoTrees, ⟨.append 0 1, .ok .none⟩, twoTreesNested⟩]
      twoTreesNested := by
  have hfirst : ApiStep twoTrees ⟨.append 0 1, .ok .none⟩ twoTreesNested := ⟨0, rfl⟩
  have hlen : ApiStep twoTreesNested ⟨.len 0, .ok (.int 1)⟩ twoTreesNested := ⟨0, rfl⟩
  have hremove : ApiStep twoTreesNested
      ⟨.remove 0, .error (.valueError "cannot remove the root node")⟩ twoTreesNested := ⟨0, rfl⟩
  exact idle_calls_erased (((Run.nil.cons hfirst).cons hlen).cons hremove)

end Sexp
