import Sexp.Memory.Slab
import Sexp.Library.FreshMap
import Sexp.Library.Transition

/-! # Runs of a slab

What a slab is for: a finite map that issues its keys. Every run of `insert` and `remove` calls on
an empty slab, with any keys, is a run of that map as long as the slots fit into keys. The free list
holds the vacant slots, each of them once, in every state on the way, and `len` counts the live
keys. -/

namespace Sexp

open Library (MapCall FreshStep Run Event liveKeys)

namespace Slab

variable {α : Type} {slab slab' : Slab α} {call : MapCall Key α}

/-- One call on a slab, with its answer. -/
def Step (slab : Slab α) : MapCall Key α → Slab α → Prop
  | .insert value key, slab' => slab.insert value = .ok (slab', key)
  | .remove key answer, slab' => slab.remove key = (slab', answer)

/-! ## One call -/

/-- An insertion makes one live value more. -/
theorem WellFormed.len_insert (h : slab.WellFormed) {value : α} {key : Key}
    (hinsert : slab.insert value = .ok (slab', key)) : slab'.len = slab.len + 1 := by
  have hle := h.length_free_le
  rw [Slab.insert] at hinsert
  split at hinsert
  · rename_i idx free hfree
    have hlt : idx.toNat < slab.slots.length := h.lt_length (by simp [hfree])
    rw [if_pos hlt, Except.ok.injEq, Prod.mk.injEq] at hinsert
    rw [hfree, List.length_cons] at hle
    rw [← hinsert.1, len, len, hfree, List.length_set, List.length_cons]
    show slab.slots.length - free.length = slab.slots.length - (free.length + 1) + 1
    omega
  · rename_i hfree
    rw [Except.ok.injEq, Prod.mk.injEq] at hinsert
    rw [← hinsert.1, len, len, hfree]
    simp

/-- The removal of a key that is not live changes nothing. -/
theorem remove_of_get_eq_none {key : Key} (h : slab.get key = none) :
    slab.remove key = (slab, none) := by
  rw [get, Option.join_eq_none_iff] at h
  rw [remove]
  rcases h with h | h <;> rw [h]

/-- A call keeps the free list consistent. -/
theorem Step.wellFormed (h : Step slab call slab') (hwf : slab.WellFormed) : slab'.WellFormed := by
  cases call with
  | insert value key =>
    obtain ⟨slab'', key', hinsert, hwf'⟩ := hwf.insert value
    have heq := hinsert.symm.trans h
    rw [Except.ok.injEq, Prod.mk.injEq] at heq
    exact heq.1 ▸ hwf'
  | remove key answer =>
    have h' : slab.remove key = (slab', answer) := h
    have hwf' := hwf.remove key
    rwa [h'] at hwf'

/-- A call takes no slot away. -/
theorem Step.length_le (h : Step slab call slab') : slab.slots.length ≤ slab'.slots.length := by
  cases call with
  | insert value key => exact (length_insert h).1
  | remove key answer =>
    have h' : slab.remove key = (slab', answer) := h
    have hlength := length_remove slab key
    rw [h'] at hlength
    exact hlength.ge

/-- **A call on a slab is a call on the map of its live values**, if the slots fit into keys. -/
theorem Step.refines (h : Step slab call slab') (hwf : slab.WellFormed)
    (hfits : slab'.slots.length ≤ 2 ^ 32) : FreshStep slab.get call slab'.get := by
  cases call with
  | insert value key =>
    obtain ⟨hfresh, hget⟩ := get_insert hwf h hfits
    refine ⟨hfresh, ?_⟩
    funext id
    rw [hget id, Function.update_apply]
  | remove key answer =>
    have h' : slab.remove key = (slab', answer) := h
    have hanswer := remove_snd slab key
    rw [h'] at hanswer
    refine ⟨hanswer, ?_⟩
    funext id
    have hget := get_remove slab key id
    rw [h'] at hget
    rw [hget, Function.update_apply]

/-! ## The invariant of a run -/

/-- **A sound slab**: the free list is consistent, and `len` counts the live keys. -/
structure Sound (slab : Slab α) : Prop where
  /-- The free list holds the empty slots. -/
  wellFormed : slab.WellFormed
  /-- The number of live values is that of the live keys. -/
  len_eq : slab.len = (liveKeys slab.get).ncard

/-- No key of the empty slab is live. -/
theorem get_new : (new : Slab α).get = fun _ => none := by
  funext key
  simp [get, new]

/-- The empty slab is sound. -/
theorem sound_new : (new : Slab α).Sound := by
  refine ⟨wellFormed_new, ?_⟩
  rw [get_new, Library.liveKeys_none, Set.ncard_empty]
  rfl

/-- A call keeps a slab sound. -/
theorem Step.sound (h : Step slab call slab') (hsound : slab.Sound)
    (hfits : slab'.slots.length ≤ 2 ^ 32) : slab'.Sound := by
  have hfresh := h.refines hsound.wellFormed hfits
  have hfin : (liveKeys slab.get).Finite := Set.toFinite _
  refine ⟨h.wellFormed hsound.wellFormed, ?_⟩
  -- the number of live keys follows the answer of the call
  cases call with
  | insert value key =>
    rw [hsound.wellFormed.len_insert h, Library.ncard_insert hfin hfresh, hsound.len_eq]
  | remove key answer =>
    have h' : slab.remove key = (slab', answer) := h
    cases answer with
    | none =>
      have hget : slab.get key = none := hfresh.1.symm
      rw [remove_of_get_eq_none hget, Prod.mk.injEq] at h'
      rw [← h'.1, hsound.len_eq]
    | some value =>
      have hlive : (slab.get key).isSome := by simp [← hfresh.1]
      have hone := hsound.wellFormed.len_remove hlive
      have hone' := Library.ncard_remove hfin hfresh
      rw [h'] at hone
      rw [hsound.len_eq, ← hone'] at hone
      exact Nat.add_right_cancel hone

variable {events : List (Event (Slab α) (MapCall Key α))}

/-- No state on the way has more slots than the last one. -/
theorem length_le_of_run {start : Slab α} (hrun : Run Step start events slab) :
    ∀ e ∈ events, e.after.slots.length ≤ slab.slots.length :=
  hrun.since (R := fun s s' => s.slots.length ≤ s'.slots.length) (fun _ _ => Nat.le_refl _)
    fun _ _ _ hle hstep => hle.trans hstep.length_le

/-- Every state of a run is sound. -/
theorem sound_of_run (hrun : Run Step new events slab) (hfits : slab.slots.length ≤ 2 ^ 32) :
    slab.Sound ∧ ∀ e ∈ events, e.before.Sound := by
  have hstep : ∀ e ∈ events, e.before.Sound → Step e.before e.label e.after → e.after.Sound :=
    fun e he hsound h => h.sound hsound ((length_le_of_run hrun e he).trans hfits)
  exact ⟨hrun.invariant sound_new hstep,
    fun e he => (hrun.invariant_around sound_new hstep e he).1⟩

/-- **A slab is a finite map with fresh keys.** In every run from the empty slab whose slots fit
into keys, with any keys: the calls are those of a map that starts empty; the free list holds each
vacant slot once and no other; an insertion does not panic, and, if its slot still fits, answers
with a key that was not live, binds it and changes no other key; a removal answers with the value of
the key and makes it vacant, changes nothing if there is none, and changes no other key; and `len`
does not underflow and is the number of live keys. -/
theorem slab_is_fresh_map (hrun : Run Step (new : Slab α) events slab)
    (hfits : slab.slots.length ≤ 2 ^ 32) :
    Run FreshStep (fun _ => none) (events.map (Event.map get)) slab.get ∧
      slab.free.Nodup ∧
      (∀ i : Nat, slab.slots[i]? = some none ↔ ∃ idx ∈ slab.free, idx.toNat = i) ∧
      (∀ value, ∃ slab' key, slab.insert value = .ok (slab', key) ∧
        (slab'.slots.length ≤ 2 ^ 32 → slab.get key = none ∧ slab'.get key = some value ∧
          ∀ id, id ≠ key → slab'.get id = slab.get id)) ∧
      (∀ key, (slab.remove key).2 = slab.get key ∧ (slab.remove key).1.get key = none ∧
        (slab.get key = none → (slab.remove key).1 = slab) ∧
        ∀ id, id ≠ key → (slab.remove key).1.get id = slab.get id) ∧
      slab.free.length ≤ slab.slots.length ∧ slab.len = (liveKeys slab.get).ncard := by
  obtain ⟨hsound, hbefore⟩ := sound_of_run hrun hfits
  have hwf := hsound.wellFormed
  refine ⟨?_, hwf.nodup_free, hwf.mem_free, fun value => ?_, fun key => ?_, hwf.length_free_le,
    hsound.len_eq⟩
  · -- no state on the way has more slots than the last one, so every key was fresh
    rw [← get_new]
    refine hrun.map get fun e he h => ?_
    exact h.refines (hbefore e he).wellFormed ((length_le_of_run hrun e he).trans hfits)
  · obtain ⟨slab', key, hinsert, -⟩ := hwf.insert value
    refine ⟨slab', key, hinsert, fun hfits' => ?_⟩
    have hstep : Step slab (.insert value key) slab' := hinsert
    have hfresh := hstep.refines hwf hfits'
    refine ⟨hfresh.1, ?_, fun id hid => hfresh.other hid⟩
    rw [hfresh.2, Function.update_self]
  · have hstep : Step slab (.remove key (slab.remove key).2) (slab.remove key).1 := rfl
    have hremove := get_remove slab key key
    rw [if_pos rfl] at hremove
    refine ⟨remove_snd slab key, hremove, fun h => ?_, fun id hid => ?_⟩
    · rw [remove_of_get_eq_none h]
    · -- a removal keeps the slots, so they fit as before
      have hlength : (slab.remove key).1.slots.length ≤ 2 ^ 32 := by
        rw [length_remove]
        exact hfits
      exact (hstep.refines hwf hlength).other hid

/-- A key is removed twice, and its slot is used again. -/
theorem slab_is_fresh_map_reuse :
    ∃ slab : Slab Nat, slab.get ⟨0⟩ = some 9 ∧ slab.len = (liveKeys slab.get).ncard := by
  have hrun : Run Step (new : Slab Nat)
      [⟨⟨[none, some 8], [0]⟩, .insert 9 ⟨0⟩, ⟨[some 9, some 8], []⟩⟩,
        ⟨⟨[none, some 8], [0]⟩, .remove ⟨0⟩ none, ⟨[none, some 8], [0]⟩⟩,
        ⟨⟨[some 7, some 8], []⟩, .remove ⟨0⟩ (some 7), ⟨[none, some 8], [0]⟩⟩,
        ⟨⟨[some 7], []⟩, .insert 8 ⟨1⟩, ⟨[some 7, some 8], []⟩⟩,
        ⟨new, .insert 7 ⟨0⟩, ⟨[some 7], []⟩⟩] ⟨[some 9, some 8], []⟩ :=
    ((((Run.nil.cons rfl).cons rfl).cons rfl).cons rfl).cons rfl
  exact ⟨⟨[some 9, some 8], []⟩, rfl, (slab_is_fresh_map hrun (by decide)).2.2.2.2.2.2⟩

end Slab

end Sexp
