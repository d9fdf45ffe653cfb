import Sexp.Reference.Creation

/-! # The library refines the reference store

Every calm run of the library is, call by call and with the same results, a run of the reference
store (`run_refines_store`). Whatever holds of all runs of the store holds of the library. -/

namespace Sexp

open Library (Run Event)
open Reference (Store)

variable {w w' : World} {c : Call} {r : Except PyErr Value} {events : List ApiEvent}

/-- **The worlds of calm runs**: they are sound, and the cached texts are the current ones. -/
structure World.Ready (w : World) : Prop where
  /-- The world is sound. -/
  sound : w.Sound
  /-- The caches are valid. -/
  cacheValid : w.AllTrees Tree.CacheValid

/-- A calm event leads to such a world again. -/
theorem ApiEvent.Calm.ready {e : ApiEvent} {v : Value} {fuel : ℕ} (hcalm : e.Calm)
    (hready : e.before.Ready) (he : Effect fuel e.before e.label.call v e.after) :
    e.after.Ready := by
  refine ⟨hcalm.sound hready.sound he, he.forall_tree (fun self h tree tree' hself hrec hwrite _
    hvalid => ?_) (fun tree hcreate _ => hcreate.cacheValid hready.cacheValid) hready.cacheValid⟩
  exact hwrite.cacheValid hvalid (hcalm.overflow self h tree hself hrec)

/-- **A call of the library is a step of the store**, when it is calm. -/
theorem ApiEvent.Calm.store_step (hcalm : ApiEvent.Calm ⟨w, ⟨c, r⟩, w'⟩) (hready : w.Ready)
    (hstep : ApiStep w ⟨c, r⟩ w') : w.store.Step ⟨c, r⟩ w'.store := by
  obtain ⟨hsound, hcache⟩ := hready
  have hsnap := hsound.snapshots
  cases c with
  | parse source => exact parse_step hsnap hstep hcalm.small
  | new => exact hstep.store_step (new_follows hsnap)
  | repr self =>
      refine hstep.store_step_of_receiver hsnap (fun fuel => (Consults.receiver _).map _)
        (fun he => by rw [Store.plan, he]; rfl) fun h tree hrec => ?_
      exact hstep.store_step (repr_follows hsound hrec (hcache tree
        (List.mem_of_getElem? hrec.tree_eq)))
  | len self =>
      exact hstep.store_step_of_receiver hsnap (fun fuel => (Consults.withTree _).map _)
        (fun he => by rw [Store.plan, he]; rfl)
        fun h tree hrec => hstep.store_step (len_follows hsound hrec)
  | eq self other =>
      cases other with
      | sexp other => exact eq_step hstep hsound
      | str text => exact hstep.store_step (.look (.const fun _ => rfl) rfl)
      | object => exact hstep.store_step (.look (.const fun _ => rfl) rfl)
  | contains self item =>
      exact hstep.store_step_of_receiver hsnap (fun fuel => (Consults.receiver _).map _)
        (fun he => by rw [Store.plan, he]; rfl)
        fun h tree hrec => contains_step hstep hsound hrec
  | getItem self key =>
      cases key with
      | int index =>
          by_cases hmachine : index < -(2 ^ 63) ∨ 2 ^ 63 ≤ index
          · refine hstep.store_step (.refuse (e := .overflowError) (.const fun fuel => ?_) ?_)
            · rw [call, SExp.getItem, if_pos hmachine]
              rfl
            · rw [Store.plan, if_pos hmachine]
          · refine hstep.store_step_of_receiver hsnap (fun fuel => ?_) (fun he => ?_)
              fun h tree (hrec : w.Receives self h tree) =>
                hstep.store_step (index_follows hsound hrec hmachine)
            · rw [call, SExp.getItem, if_neg hmachine]
              exact ((Consults.withTree _).bind _).map _
            · rw [Store.plan, if_neg hmachine, he]
              rfl
      | str key =>
          exact hstep.store_step_of_receiver hsnap
            (fun fuel => ((Consults.withTree _).bind _).map _)
            (fun he => by rw [Store.plan, he]; rfl)
            fun h tree hrec => hstep.store_step (key_follows hsound hrec key)
      | slice start stop step =>
          exact hstep.store_step_of_receiver hsnap
            (fun fuel => ((Consults.withTree _).bind _).map _)
            (fun he => by rw [Store.plan, he]; rfl)
            fun h tree hrec => hstep.store_step (slice_follows hsound hrec start stop step)
      | object typeName =>
          exact hstep.store_step_of_receiver hsnap
            (fun fuel => ((Consults.withTree _).bind _).map _)
            (fun he => by rw [Store.plan, he]; rfl)
            fun h tree hrec => hstep.store_step (object_follows hsound hrec typeName)
  | iter self =>
      exact hstep.store_step_of_receiver hsnap (fun fuel => ((Consults.withTree _).bind _).map _)
        (fun he => by rw [Store.plan, he]; rfl)
        fun h tree hrec => hstep.store_step (iter_follows hsound hrec)
  | next it => exact next_step hstep hsound
  | head self =>
      exact hstep.store_step_of_receiver hsnap (fun fuel => ((Consults.withTree _).bind _).map _)
        (fun he => by rw [Store.plan, he]; rfl)
        fun h tree hrec => hstep.store_step (head_follows hsound hrec)
  | tail self =>
      exact hstep.store_step_of_receiver hsnap (fun fuel => ((Consults.withTree _).bind _).map _)
        (fun he => by rw [Store.plan, he]; rfl)
        fun h tree hrec => hstep.store_step (tail_follows hsound hrec)
  | isAtom self =>
      exact hstep.store_step_of_receiver hsnap (fun fuel => (Consults.withTree _).map _)
        (fun he => by rw [Store.plan, he]; rfl)
        fun h tree hrec => hstep.store_step (isAtom_follows hsound hrec)
  | value self =>
      exact hstep.store_step_of_receiver hsnap (fun fuel => (Consults.withTree _).map _)
        (fun he => by rw [Store.plan, he]; rfl)
        fun h tree hrec => hstep.store_step (value_follows hsound hrec)
  | setValue self value =>
      exact hstep.store_step_of_receiver hsnap (fun fuel => (Consults.withTreeMut _).map _)
        (fun he => by rw [Store.plan, he]; rfl)
        fun h tree hrec => hstep.store_step (setValue_follows hsound hrec value)
  | parent self =>
      exact hstep.store_step_of_receiver hsnap (fun fuel => ((Consults.withTree _).bind _).map _)
        (fun he => by rw [Store.plan, he]; rfl)
        fun h tree hrec => hstep.store_step (parent_follows hsound hrec)
  | newAtom self value =>
      refine hstep.store_step_of_receiver hsnap
        (fun fuel => ((Consults.withTreeMut _).bind _).map _)
        (fun he => by rw [Store.plan, he]; rfl) fun h tree hrec => ?_
      refine alloc_step (.atom (Atom.new value)) hsound hrec hstep hcalm.small ?_
        (fun _ _ _ => allocAtom_ok) (allocAtom_total (hsound.consistent hrec).slab _) fun _ => rfl
      rw [Store.plan, World.use_of_receives hrec, NodeType.content, Atom.asStr_new]
      rfl
  | newList self =>
      refine hstep.store_step_of_receiver hsnap
        (fun fuel => ((Consults.withTreeMut _).bind _).map _)
        (fun he => by rw [Store.plan, he]; rfl) fun h tree hrec => ?_
      refine alloc_step .list hsound hrec hstep hcalm.small ?_
        (fun _ _ _ => allocList_ok) (allocList_total (hsound.consistent hrec).slab) fun _ => rfl
      rw [Store.plan, World.use_of_receives hrec]
      rfl
  | append self child => exact append_step hsound hcalm hstep
  | prepend self child => exact prepend_step hsound hcalm hstep
  | insertAfter self after child =>
      cases after with
      | none => exact insertFirst_step hsound hcalm hstep
      | some after => exact insertBehind_step hsound hcalm hstep
  | remove self => exact remove_step hsound hcalm hstep
  | clone self =>
      exact hstep.store_step_of_receiver hsnap (fun fuel => ((Consults.withTree _).bind _).map _)
        (fun he => by rw [Store.plan, he]; rfl)
        fun h tree hrec => hstep.store_step (clone_follows hsound hrec)
  | extract self => exact extract_step hsound hcalm hstep

/-- **The library refines the reference store.** Every calm run of the library is a run of the
store: call by call, what is returned or raised is what the store returns or raises, and the objects
stand for the store that the steps lead to. -/
theorem run_refines_store (hrun : ApiRun events w) (hcalm : ∀ e ∈ events, e.Calm) :
    Run Store.Step Store.empty (events.map (Event.map World.store)) w.store := by
  have haround : ∀ e ∈ events, e.before.Ready ∧ e.after.Ready :=
    hrun.invariant_around (C := ApiEvent.Calm) ⟨World.sound_empty, nofun⟩
      (fun _ _ _ he hbefore heffect => he.ready hbefore heffect) hcalm
  exact hrun.map World.store fun e he hstep => (hcalm e he).store_step (haround e he).1 hstep

/-- `run_refines_store` at the run `t = SExp(); l = t.new_list(); t.append(l)`. -/
theorem run_refines_store_nested :
    Run Store.Step Store.empty (eventsNested.map (Event.map World.store)) nested.store :=
  run_refines_store run_nested eventsNested_calm

end Sexp
