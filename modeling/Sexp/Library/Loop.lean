import Mathlib.Data.Nat.Basic
import Mathlib.Tactic.Common

/-! # Fuelled loops over `Except`

A `while` loop of an imperative program, read as a function: `iterate spent body fuel s` runs
`body` from the loop state `s` until it leaves, for at most `fuel` passes, and answers the error
`spent` when the passes run out. The error `spent` stands for "no answer yet"; a result obtained
with some fuel is the result with any larger fuel (`iterate_mono`).

The rules below are the ones of a Hoare logic for such loops: stepping (`iterate_again`,
`iterate_leave`), an invariant for partial correctness (`iterate_invariant`), the answer of a loop
whose passes answer for total correctness (`LoopAnswers.answers`), and comparison of two loop bodies
(`iterate_weaken`). -/

namespace Sexp.Library

universe u v w

variable {ε : Type u} {σ : Type v} {α β : Type w}

/-! ## Sequencing in `Except` -/

/-- A sequence succeeds iff its first part does and the rest succeeds on its value. -/
theorem bind_eq_ok {ε : Type u} {α β : Type v} {x : Except ε α} {f : α → Except ε β} {b : β} :
    x >>= f = .ok b ↔ ∃ a, x = .ok a ∧ f a = .ok b := by
  rcases x with e | a <;> simp [Bind.bind, Except.bind]

/-- A sequence whose first part succeeds is the rest on its value. -/
@[simp] theorem ok_bind {ε : Type u} {α β : Type v} (a : α) (f : α → Except ε β) :
    (Except.ok a >>= f) = f a := rfl

/-- A sequence whose first part fails is that failure. -/
@[simp] theorem error_bind {ε : Type u} {α β : Type v} (e : ε) (f : α → Except ε β) :
    (Except.error e >>= f) = .error e := rfl

/-- `pure` of the `Except` monad is `Except.ok`. -/
@[simp] theorem pure_eq_ok {ε : Type u} {α : Type v} (a : α) : (pure a : Except ε α) = .ok a := rfl

/-- `throw` of the `Except` monad is `Except.error`. -/
@[simp] theorem throw_eq_error {ε : Type u} {α : Type v} (e : ε) :
    (throw e : Except ε α) = .error e := rfl

/-! ## The loop -/

/-- **The outcome of one pass** through a loop body: go round again from a new loop state, or
leave the loop with a result. -/
inductive Pass (σ : Type v) (β : Type w) where
  /-- Go round again from this loop state. -/
  | again (s : σ)
  /-- Leave the loop with this result. -/
  | leave (b : β)

/-- **A `while` loop with fuel.** Runs `body` from `s` for at most `fuel` passes; the error
`spent` means that the fuel ran out before the loop was left. -/
def iterate (spent : ε) (body : σ → Except ε (Pass σ β)) : Nat → σ → Except ε β
  | 0, _ => .error spent
  | fuel + 1, s =>
      match body s with
      | .error e => .error e
      | .ok (.again s') => iterate spent body fuel s'
      | .ok (.leave b) => .ok b

variable {spent : ε} {body body' : σ → Except ε (Pass σ β)} {s s' : σ} {b : β}

/-- A pass that goes round again spends one unit of fuel. -/
theorem iterate_again (fuel : Nat) (h : body s = .ok (.again s')) :
    iterate spent body (fuel + 1) s = iterate spent body fuel s' := by
  rw [iterate, h]

/-- A pass that leaves ends the loop. -/
theorem iterate_leave (fuel : Nat) (h : body s = .ok (.leave b)) :
    iterate spent body (fuel + 1) s = .ok b := by
  rw [iterate, h]

/-- A loop that answers has made a first pass, and either left with the answer or gone on. -/
theorem iterate_succ_eq_ok {fuel : Nat} :
    iterate spent body (fuel + 1) s = .ok b ↔
      body s = .ok (.leave b) ∨
        ∃ s', body s = .ok (.again s') ∧ iterate spent body fuel s' = .ok b := by
  rw [iterate]
  rcases body s with e | (s' | b') <;> simp

/-- **Comparison of loop bodies.** If every successful pass of `body` is a pass of `body'`, then
every answer of the first loop is an answer of the second, with the same or more fuel. -/
theorem iterate_weaken (hbody : ∀ s p, body s = .ok p → body' s = .ok p) :
    ∀ {fuel fuel' : Nat} {s : σ}, fuel ≤ fuel' →
      iterate spent body fuel s = .ok b → iterate spent body' fuel' s = .ok b := by
  intro fuel
  induction fuel with
  | zero => intro fuel' s _ h; simp [iterate] at h
  | succ fuel ih =>
      intro fuel' s hle h
      obtain ⟨more, rfl⟩ : ∃ more, fuel' = more + 1 := ⟨fuel' - 1, by omega⟩
      rw [iterate_succ_eq_ok] at h ⊢
      rcases h with h | ⟨s', h, h'⟩
      · exact .inl (hbody s _ h)
      · exact .inr ⟨s', hbody s _ h, ih (by omega) h'⟩

/-- More fuel does not change an answer. -/
theorem iterate_mono {fuel fuel' : Nat} (hle : fuel ≤ fuel')
    (h : iterate spent body fuel s = .ok b) : iterate spent body fuel' s = .ok b :=
  iterate_weaken (fun _ _ h => h) hle h

/-- **The invariant rule (partial correctness).** What holds on entry and is kept by every pass
that goes round again, and gives `Post` on every pass that leaves, gives `Post` of the answer. -/
theorem iterate_invariant (Inv : σ → Prop) (Post : β → Prop)
    (hagain : ∀ s s', Inv s → body s = .ok (.again s') → Inv s')
    (hleave : ∀ s b, Inv s → body s = .ok (.leave b) → Post b) :
    ∀ {fuel : Nat} {s : σ}, Inv s → iterate spent body fuel s = .ok b → Post b := by
  intro fuel
  induction fuel with
  | zero => intro s _ h; simp [iterate] at h
  | succ fuel ih =>
      intro s hs h
      rcases iterate_succ_eq_ok.mp h with h | ⟨s', hpass, h⟩
      · exact hleave s b hs h
      · exact ih (hagain s s' hs hpass) h

/-! ## Computations with fuel

A computation that takes its fuel as an argument *answers* `a` when it gives `a` for every
sufficiently large fuel. Such computations compose: the fuel of a loop is handed on to the loops
inside its body. -/

/-- **The answer of a computation with fuel**: its value for every sufficiently large fuel. -/
def Answers (f : ℕ → Except ε α) (a : α) : Prop :=
  ∃ bound, ∀ fuel, bound ≤ fuel → f fuel = .ok a

/-- More fuel does not change the answer of the computation. -/
def FuelMono (f : ℕ → Except ε α) : Prop :=
  ∀ fuel fuel' a, fuel ≤ fuel' → f fuel = .ok a → f fuel' = .ok a

/-- What a computation gives for some fuel is its answer. -/
theorem FuelMono.answers {f : ℕ → Except ε α} (hf : FuelMono f) {fuel : ℕ} {a : α}
    (h : f fuel = .ok a) : Answers f a :=
  ⟨fuel, fun fuel' hle => hf fuel fuel' a hle h⟩

/-- A computation has at most one answer. -/
theorem Answers.unique {f : ℕ → Except ε α} {a a' : α} (h : Answers f a) (h' : Answers f a') :
    a = a' := by
  obtain ⟨n, hn⟩ := h
  obtain ⟨n', hn'⟩ := h'
  have := (hn (max n n') (le_max_left n n')).symm.trans (hn' (max n n') (le_max_right n n'))
  simpa using this

/-- What a computation gives for some fuel agrees with its answer. -/
theorem Answers.eq_of_ok {f : ℕ → Except ε α} {a a' : α} (h : Answers f a) (hf : FuelMono f)
    {fuel : ℕ} (h' : f fuel = .ok a') : a' = a :=
  (hf.answers h').unique h

/-- A computation without loops answers its value. -/
theorem Answers.const {f : ℕ → Except ε α} {a : α} (h : ∀ fuel, f fuel = .ok a) : Answers f a :=
  ⟨0, fun fuel _ => h fuel⟩

/-- An answer is given for some fuel. -/
theorem Answers.exists_fuel {f : ℕ → Except ε α} {a : α} (h : Answers f a) :
    ∃ fuel, f fuel = .ok a := by
  obtain ⟨n, hn⟩ := h
  exact ⟨n, hn n le_rfl⟩

/-- **Sequencing of answers.** -/
theorem Answers.bind {ε : Type u} {α β : Type v} {f : ℕ → Except ε α} {g : ℕ → α → Except ε β}
    {a : α} {b : β} (hf : Answers f a) (hg : Answers (fun fuel => g fuel a) b) :
    Answers (fun fuel => f fuel >>= g fuel) b := by
  obtain ⟨n, hn⟩ := hf
  obtain ⟨m, hm⟩ := hg
  refine ⟨max n m, fun fuel hle => ?_⟩
  change f fuel >>= g fuel = .ok b
  rw [hn fuel (le_trans (le_max_left n m) hle), ok_bind]
  exact hm fuel (le_trans (le_max_right n m) hle)

/-- **Answers for a list.** Computations that answer one by one answer for the whole list. -/
theorem Answers.mapM {ε : Type u} {α : Type w} {β : Type v} {f : ℕ → α → Except ε β} {g : α → β}
    {l : List α} (h : ∀ a ∈ l, Answers (fun fuel => f fuel a) (g a)) :
    Answers (fun fuel => l.mapM (f fuel)) (l.map g) := by
  induction l with
  | nil => exact .const fun _ => rfl
  | cons a l ih =>
      have hrest := ih fun b hb => h b (List.mem_cons_of_mem a hb)
      simp only [List.mapM_cons, List.map_cons]
      exact .bind (h a List.mem_cons_self) (.bind hrest (.const fun _ => rfl))

/-- A recursion answers what it answers with one unit of fuel less for the calls it makes. -/
theorem Answers.succ {f : ℕ → Except ε α} {a : α} (h : Answers (fun fuel => f (fuel + 1)) a) :
    Answers f a := by
  obtain ⟨n, hn⟩ := h
  refine ⟨n + 1, fun fuel hle => ?_⟩
  obtain ⟨more, rfl⟩ : ∃ more, fuel = more + 1 := ⟨fuel - 1, by omega⟩
  exact hn more (by omega)

/-- A computation without loops does not depend on the fuel. -/
theorem FuelMono.const (x : Except ε α) : FuelMono fun _ => x := fun _ _ _ _ h => h

/-- Choosing between two computations keeps monotonicity in the fuel. -/
theorem FuelMono.ite {p : Prop} [Decidable p] {f g : ℕ → Except ε α} (hf : FuelMono f)
    (hg : FuelMono g) : FuelMono fun fuel => if p then f fuel else g fuel := by
  by_cases hp : p
  · simpa only [if_pos hp] using hf
  · simpa only [if_neg hp] using hg

/-- Sequencing keeps monotonicity in the fuel. -/
theorem FuelMono.bind {ε : Type u} {α β : Type v} {f : ℕ → Except ε α} {g : ℕ → α → Except ε β}
    (hf : FuelMono f) (hg : ∀ a, FuelMono fun fuel => g fuel a) :
    FuelMono fun fuel => f fuel >>= g fuel := by
  intro fuel fuel' b hle h
  rw [bind_eq_ok] at h ⊢
  obtain ⟨a, ha, hb⟩ := h
  exact ⟨a, hf _ _ a hle ha, hg a _ _ b hle hb⟩

/-- Loops are monotone in the fuel, also when they hand it on to the loops in their body. -/
theorem FuelMono.iterate {body : ℕ → σ → Except ε (Pass σ β)}
    (hbody : ∀ s, FuelMono fun fuel => body fuel s) (s : σ) :
    FuelMono fun fuel => iterate spent (body fuel) fuel s := fun fuel fuel' _ hle h =>
  iterate_weaken (fun s p hp => hbody s fuel fuel' p hle hp) hle h

/-- A loop without loops in its body is monotone in the fuel. -/
theorem FuelMono.iterate_const (body : σ → Except ε (Pass σ β)) (s : σ) :
    FuelMono fun fuel => Library.iterate spent body fuel s := fun _ _ _ hle h => iterate_mono hle h

/-- **The answer of a loop**, for sufficiently large fuels of the loop and of its body. -/
def LoopAnswers (spent : ε) (body : ℕ → σ → Except ε (Pass σ β)) (s : σ) (b : β) : Prop :=
  ∃ bound, ∀ inner, bound ≤ inner → ∀ fuel, bound ≤ fuel →
    iterate spent (body inner) fuel s = .ok b

section LoopAnswers

variable {body : ℕ → σ → Except ε (Pass σ β)}

/-- A loop that leaves answers. -/
theorem LoopAnswers.leave (h : Answers (fun fuel => body fuel s) (.leave b)) :
    LoopAnswers spent body s b := by
  obtain ⟨n, hn⟩ := h
  refine ⟨n + 1, fun inner hinner fuel hfuel => ?_⟩
  obtain ⟨more, rfl⟩ : ∃ more, fuel = more + 1 := ⟨fuel - 1, by omega⟩
  exact iterate_leave more (hn inner (by omega))

/-- A loop that goes round again answers what the rest of the loop answers. -/
theorem LoopAnswers.again (h : Answers (fun fuel => body fuel s) (.again s'))
    (h' : LoopAnswers spent body s' b) : LoopAnswers spent body s b := by
  obtain ⟨n, hn⟩ := h
  obtain ⟨m, hm⟩ := h'
  refine ⟨max n m + 1, fun inner hinner fuel hfuel => ?_⟩
  obtain ⟨more, rfl⟩ : ∃ more, fuel = more + 1 := ⟨fuel - 1, by omega⟩
  rw [iterate_again more (hn inner (by omega))]
  exact hm inner (by omega) more (by omega)

/-- The answer of a loop is the answer of the computation that gives it all its fuel. -/
theorem LoopAnswers.answers (h : LoopAnswers spent body s b) :
    Answers (fun fuel => iterate spent (body fuel) fuel s) b := by
  obtain ⟨n, hn⟩ := h
  exact ⟨n, fun fuel hle => hn fuel hle fuel hle⟩

end LoopAnswers

/-! ## Loops over an explicit stack

A traversal keeps an accumulator and a stack of frames, of which each pass pops one and may push
others. Clearing a list of frames takes the accumulator from one value to another, whatever the
stack below; it composes like the recursion that the stack stands for. -/

/-- **Clearing frames.** From the accumulator `a`, the loop takes the frames `fs` off the stack and
gets to the accumulator `a'`. -/
def Clears {α φ : Type v} (spent : ε) (body : ℕ → α × List φ → Except ε (Pass (α × List φ) β))
    (a : α) (fs : List φ) (a' : α) : Prop :=
  ∀ stack b, LoopAnswers spent body (a', stack) b → LoopAnswers spent body (a, fs ++ stack) b

section Clears

variable {α φ : Type v} {body : ℕ → α × List φ → Except ε (Pass (α × List φ) β)}
  {a a' a'' : α} {f : φ} {fs gs : List φ}

/-- Clearing no frames. -/
theorem Clears.nil (a : α) : Clears spent body a [] a := fun _ _ h => h

/-- Clearing frames one after the other. -/
theorem Clears.append (h : Clears spent body a fs a') (h' : Clears spent body a' gs a'') :
    Clears spent body a (fs ++ gs) a'' := by
  intro stack b hb
  rw [List.append_assoc]
  exact h _ _ (h' _ _ hb)

/-- Clearing a frame by one pass and then the frames that the pass pushes. -/
theorem Clears.push
    (h : ∀ stack, Answers (fun fuel => body fuel (a, f :: stack)) (.again (a', gs ++ stack)))
    (h' : Clears spent body a' gs a'') : Clears spent body a [f] a'' := fun stack _ hb =>
  .again (h stack) (h' _ _ hb)

/-- A loop that clears its whole stack and then leaves. -/
theorem Clears.loopAnswers {b : β} (h : Clears spent body a fs a')
    (hleave : Answers (fun fuel => body fuel (a', [])) (.leave b)) :
    LoopAnswers spent body (a, fs) b := by
  have := h [] b (.leave hleave)
  rwa [List.append_nil] at this

end Clears

end Sexp.Library
