import Mathlib.Tactic.Common

/-! # Runs of a labelled transition system

A run is the list of its events, the last one first. Three rules carry over what one step does to
whole runs: a property of states that every step keeps (`Run.invariant`), the same for every state
on the way (`Run.invariant_around`), and a relation between an earlier state and the last one that
every step extends (`Run.since`). A fourth one moves a run to an abstract system that simulates the
steps (`Run.map`), a fifth one leaves out steps that change nothing (`Run.erase`), and a sixth one
rearranges a run whose neighbouring steps commute (`Run.partition`). The steps may be restricted by
conditions on the events. -/

namespace Sexp.Library

universe u v w

/-- **One event of a run**: the state before, the label of the step, and the state after. -/
structure Event (σ : Type u) (ℓ : Type v) where
  /-- The state before the step. -/
  before : σ
  /-- The label of the step. -/
  label : ℓ
  /-- The state after the step. -/
  after : σ

variable {σ : Type u} {ℓ : Type v}

/-- An event under an abstraction of the states. -/
def Event.map {τ : Type w} (f : σ → τ) (e : Event σ ℓ) : Event τ ℓ :=
  ⟨f e.before, e.label, f e.after⟩

/-- **Runs** of the steps `step` from the state `start`. -/
inductive Run (step : σ → ℓ → σ → Prop) (start : σ) : List (Event σ ℓ) → σ → Prop where
  /-- The run without events. -/
  | nil : Run step start [] start
  /-- One more event. -/
  | cons {events : List (Event σ ℓ)} {s s' : σ} {l : ℓ} (run : Run step start events s)
      (h : step s l s') : Run step start (⟨s, l, s'⟩ :: events) s'

namespace Run

variable {step : σ → ℓ → σ → Prop} {start s : σ} {events : List (Event σ ℓ)} {P : σ → Prop}

/-- **The invariant rule.** What holds at the start and is kept by every event holds at the end. -/
theorem invariant (hrun : Run step start events s) (hstart : P start)
    (hstep : ∀ e ∈ events, P e.before → step e.before e.label e.after → P e.after) : P s := by
  induction hrun with
  | nil => exact hstart
  | @cons events s s' l run h ih =>
      have hs : P s := ih fun e he => hstep e (List.mem_cons_of_mem _ he)
      exact hstep ⟨s, l, s'⟩ List.mem_cons_self hs h

/-- What holds at the start and is kept by every event holds before and after every event. -/
theorem invariant_around (hrun : Run step start events s) (hstart : P start)
    (hstep : ∀ e ∈ events, P e.before → step e.before e.label e.after → P e.after) :
    ∀ e ∈ events, P e.before ∧ P e.after := by
  induction hrun with
  | nil => simp
  | @cons events s s' l run h ih =>
      have hrest : ∀ e ∈ events, P e.before → step e.before e.label e.after → P e.after :=
        fun e he => hstep e (List.mem_cons_of_mem _ he)
      have hs : P s := run.invariant hstart hrest
      intro e he
      rcases List.mem_cons.mp he with rfl | he
      · exact ⟨hs, hstep ⟨s, l, s'⟩ List.mem_cons_self hs h⟩
      · exact ih hrest e he

/-- The events of a run are steps. -/
theorem step_of_mem (hrun : Run step start events s) :
    ∀ e ∈ events, step e.before e.label e.after := by
  induction hrun with
  | nil => simp
  | @cons events s s' l run h ih =>
      intro e he
      rcases List.mem_cons.mp he with rfl | he
      · exact h
      · exact ih e he

/-- Runs one after the other. -/
theorem trans {events' : List (Event σ ℓ)} {s' : σ} (hrun : Run step start events s)
    (hrun' : Run step s events' s') : Run step start (events' ++ events) s' := by
  induction hrun' with
  | nil => exact hrun
  | cons run h ih => exact ih.cons h

/-- **The pairwise rule.** A relation that holds between every state and itself, and that every
later event extends, holds between the state after an event and the last state. -/
theorem since {R : σ → σ → Prop} (hrun : Run step start events s)
    (hrefl : ∀ e ∈ events, R e.after e.after)
    (hstep : ∀ e ∈ events, ∀ s₀, R s₀ e.before → step e.before e.label e.after →
      R s₀ e.after) : ∀ e ∈ events, R e.after s := by
  induction hrun with
  | nil => simp
  | @cons events s s' l run h ih =>
      have hrest := ih (fun e he => hrefl e (List.mem_cons_of_mem _ he))
        fun e he => hstep e (List.mem_cons_of_mem _ he)
      intro e he
      rcases List.mem_cons.mp he with rfl | he
      · exact hrefl _ List.mem_cons_self
      · exact hstep ⟨s, l, s'⟩ List.mem_cons_self e.after (hrest e he) h

/-- **The simulation rule.** If every event of a run is a step of another system under an
abstraction of the states, then the run is one of that system. -/
theorem map {τ : Type w} {step' : τ → ℓ → τ → Prop} (f : σ → τ) (hrun : Run step start events s)
    (hstep : ∀ e ∈ events, step e.before e.label e.after →
      step' (f e.before) e.label (f e.after)) :
    Run step' (f start) (events.map (Event.map f)) (f s) := by
  induction hrun with
  | nil => exact .nil
  | @cons events s s' l run h ih =>
      have hrest := ih fun e he => hstep e (List.mem_cons_of_mem _ he)
      exact hrest.cons (hstep ⟨s, l, s'⟩ List.mem_cons_self h)

/-- **The erasure rule.** A run stays one when events that change nothing are left out. -/
theorem erase {idle : Event σ ℓ → Bool} (hrun : Run step start events s)
    (hidle : ∀ e ∈ events, idle e = true → step e.before e.label e.after → e.after = e.before) :
    Run step start (events.filter fun e => !idle e) s := by
  induction hrun with
  | nil => exact .nil
  | @cons events s s' l run h ih =>
      have hrest := ih fun e he => hidle e (List.mem_cons_of_mem _ he)
      cases hi : idle ⟨s, l, s'⟩ with
      | true =>
          obtain rfl : s' = s := hidle _ List.mem_cons_self hi h
          rwa [List.filter_cons_of_neg (by simp [hi])]
      | false =>
          rw [List.filter_cons_of_pos (by simp [hi])]
          exact hrest.cons h

section Partition

variable {first last : σ → ℓ → Prop}
  (hswap : ∀ s l s₁ l' s₂, last s l → first s₁ l' → step s l s₁ → step s₁ l' s₂ →
    ∃ s₁', first s l' ∧ step s l' s₁' ∧ last s₁' l ∧ step s₁' l s₂)
include hswap

/-- A step that may come first moves to the start of a run of steps that may come last. -/
theorem move_first {l : ℓ} {s' : σ} (hrun : Run step start events s)
    (hlast : ∀ e ∈ events, last e.before e.label) (hfirst : first s l) (hstep : step s l s') :
    ∃ s₁ events', first start l ∧ step start l s₁ ∧ Run step s₁ events' s' ∧
      (∀ e ∈ events', last e.before e.label) ∧
      events'.map Event.label = events.map Event.label := by
  induction hrun generalizing s' with
  | nil => exact ⟨s', [], hfirst, hstep, .nil, nofun, rfl⟩
  | @cons events s s₂ l₂ run h ih =>
      obtain ⟨s₁', hfirst', hstep', hlast', h'⟩ :=
        hswap s l₂ s₂ l s' (hlast _ List.mem_cons_self) hfirst h hstep
      obtain ⟨s₁, events', hl, hs₁, hrun', hall, hlabels⟩ :=
        ih (fun e he => hlast e (List.mem_cons_of_mem _ he)) hfirst' hstep'
      refine ⟨s₁, _, hl, hs₁, hrun'.cons h', ?_, by simp [hlabels]⟩
      exact List.forall_mem_cons.mpr ⟨hlast', hall⟩

open Classical in
/-- **The rearrangement rule.** When a step that may come last and the step after it, which may come
first, can be done in the other order, then a run of such steps is one in which all those that may
come last do so. -/
theorem partition (hrun : Run step start events s)
    (hevents : ∀ e ∈ events, last e.before e.label ∨ first e.before e.label) :
    ∃ v events₁ events₂, Run step start events₁ v ∧ Run step v events₂ s ∧
      (∀ e ∈ events₂, last e.before e.label) ∧
      events₁.map Event.label = (events.filter fun e => ¬ last e.before e.label).map Event.label ∧
      events₂.map Event.label = (events.filter fun e => last e.before e.label).map Event.label := by
  induction hrun with
  | nil => exact ⟨start, [], [], .nil, .nil, nofun, rfl, rfl⟩
  | @cons events s s' l run h ih =>
      obtain ⟨v, events₁, events₂, hrun₁, hrun₂, hlast, hlabels₁, hlabels₂⟩ :=
        ih fun e he => hevents e (List.mem_cons_of_mem _ he)
      by_cases hl : last s l
      · refine ⟨v, events₁, _, hrun₁, hrun₂.cons h, List.forall_mem_cons.mpr ⟨hl, hlast⟩, ?_, ?_⟩
        · simp [hl, hlabels₁]
        · simp [hl, hlabels₂]
      · have hfirst : first s l := (hevents _ List.mem_cons_self).resolve_left hl
        obtain ⟨v', events₂', -, hstep, hrun₂', hlast', hsame⟩ :=
          hrun₂.move_first hswap hlast hfirst h
        refine ⟨v', _, events₂', hrun₁.cons hstep, hrun₂', hlast', ?_, ?_⟩
        · simp [hl, hlabels₁]
        · simp [hl, hsame, hlabels₂]

end Partition

end Run

end Sexp.Library
