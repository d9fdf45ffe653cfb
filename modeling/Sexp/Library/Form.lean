import Mathlib.Algebra.BigOperators.Group.List.Basic
import Mathlib.Algebra.Ring.Int.Defs
import Mathlib.Data.List.Infix
import Mathlib.Tactic.Common

/-! # Forms and bracket sequences

The grammar `form ::= atom | '(' form* ')'` over arbitrary atoms: derivation trees (`Form`), the
token sequences they derive (`Form.tokens`), and the reading of a token sequence with an explicit
stack of open lists (`read`).

A token sequence derives from some forms iff no prefix of it closes more lists than it opens and
the whole sequence closes as many as it opens (`balanced_iff_exists`); the forms are then unique
(`tokensAll_inj`). -/

namespace Sexp.Library

universe u

/-- **Tokens** over atoms `α`. -/
inductive Token (α : Type u) : Type u where
  /-- An opening parenthesis. -/
  | leftParen
  /-- A closing parenthesis. -/
  | rightParen
  /-- An atom. -/
  | atom (value : α)
  deriving DecidableEq, Repr

/-- **Forms**, the derivation trees of the grammar `form ::= atom | '(' form* ')'`. -/
inductive Form (α : Type u) : Type u where
  /-- An atom. -/
  | atom (value : α)
  /-- A list of forms. -/
  | list (forms : List (Form α))

variable {α : Type u}

/-! ## The tokens of forms -/

namespace Form

mutual

/-- The token sequence that a form derives. -/
def tokens : Form α → List (Token α)
  | .atom a => [.atom a]
  | .list fs => .leftParen :: (tokensAll fs ++ [.rightParen])

/-- The token sequence that a list of forms derives. -/
def tokensAll : List (Form α) → List (Token α)
  | [] => []
  | f :: fs => f.tokens ++ tokensAll fs

end

@[simp] theorem tokens_atom (a : α) : (atom a).tokens = [.atom a] := by
  rw [tokens]

@[simp] theorem tokens_list (fs : List (Form α)) :
    (list fs).tokens = .leftParen :: (tokensAll fs ++ [.rightParen]) := by
  rw [tokens]

@[simp] theorem tokensAll_nil : tokensAll ([] : List (Form α)) = [] := by
  rw [tokensAll]

@[simp] theorem tokensAll_cons (f : Form α) (fs : List (Form α)) :
    tokensAll (f :: fs) = f.tokens ++ tokensAll fs := by
  rw [tokensAll]

@[simp] theorem tokensAll_append (fs gs : List (Form α)) :
    tokensAll (fs ++ gs) = tokensAll fs ++ tokensAll gs := by
  induction fs with
  | nil => simp
  | cons f fs ih => simp [ih]

mutual

/-- The number of nodes of a form. -/
def size : Form α → ℕ
  | .atom _ => 1
  | .list fs => sizeAll fs + 1

/-- The number of nodes of a list of forms. -/
def sizeAll : List (Form α) → ℕ
  | [] => 0
  | f :: fs => f.size + sizeAll fs

end

@[simp] theorem size_atom (a : α) : (atom a).size = 1 := by
  rw [size]

@[simp] theorem size_list (fs : List (Form α)) : (list fs).size = sizeAll fs + 1 := by
  rw [size]

@[simp] theorem sizeAll_nil : sizeAll ([] : List (Form α)) = 0 := by
  rw [sizeAll]

@[simp] theorem sizeAll_cons (f : Form α) (fs : List (Form α)) :
    sizeAll (f :: fs) = f.size + sizeAll fs := by
  rw [sizeAll]

@[simp] theorem sizeAll_append (fs gs : List (Form α)) :
    sizeAll (fs ++ gs) = sizeAll fs + sizeAll gs := by
  induction fs with
  | nil => simp
  | cons f fs ih => simp [ih, Nat.add_assoc]

/-- A form has a node. -/
theorem size_pos (f : Form α) : 0 < f.size := by
  cases f with
  | atom a => simp
  | list fs => simp

/-- There are at least as many nodes as forms. -/
theorem length_le_sizeAll (fs : List (Form α)) : fs.length ≤ sizeAll fs := by
  induction fs with
  | nil => exact Nat.zero_le _
  | cons f fs ih =>
      have hpos := f.size_pos
      rw [List.length_cons, sizeAll_cons]
      omega

mutual

/-- The parts of a form: the form itself and the parts of its elements, in order. -/
def parts : Form α → List (Form α)
  | .atom a => [.atom a]
  | .list fs => .list fs :: partsAll fs

/-- The parts of a list of forms. -/
def partsAll : List (Form α) → List (Form α)
  | [] => []
  | f :: fs => f.parts ++ partsAll fs

end

@[simp] theorem parts_atom (a : α) : (atom a).parts = [.atom a] := by
  rw [parts]

@[simp] theorem parts_list (fs : List (Form α)) : (list fs).parts = .list fs :: partsAll fs := by
  rw [parts]

@[simp] theorem partsAll_nil : partsAll ([] : List (Form α)) = [] := by
  rw [partsAll]

@[simp] theorem partsAll_cons (f : Form α) (fs : List (Form α)) :
    partsAll (f :: fs) = f.parts ++ partsAll fs := by
  rw [partsAll]

end Form

/-! ## Depth -/

/-- By how much a token changes the number of open lists. -/
def Token.delta : Token α → ℤ
  | .leftParen => 1
  | .rightParen => -1
  | .atom _ => 0

/-- **The depth after a token sequence**: how many more lists it opens than it closes. -/
def depth (ts : List (Token α)) : ℤ := (ts.map Token.delta).sum

@[simp] theorem depth_nil : depth ([] : List (Token α)) = 0 := rfl

@[simp] theorem depth_cons (t : Token α) (ts : List (Token α)) :
    depth (t :: ts) = t.delta + depth ts := by
  simp [depth]

@[simp] theorem depth_append (ts us : List (Token α)) :
    depth (ts ++ us) = depth ts + depth us := by
  simp [depth]

/-- **The number of nodes** that a token sequence stands for: its opening parentheses and atoms. -/
def nodeCount (ts : List (Token α)) : ℕ :=
  ts.countP fun | .rightParen => false | _ => true

@[simp] theorem nodeCount_nil : nodeCount ([] : List (Token α)) = 0 := rfl

@[simp] theorem nodeCount_append (ts us : List (Token α)) :
    nodeCount (ts ++ us) = nodeCount ts + nodeCount us := by
  simp [nodeCount]

@[simp] theorem nodeCount_leftParen (ts : List (Token α)) :
    nodeCount (.leftParen :: ts) = nodeCount ts + 1 := by
  simp [nodeCount]

@[simp] theorem nodeCount_rightParen (ts : List (Token α)) :
    nodeCount (.rightParen :: ts) = nodeCount ts := by
  simp [nodeCount]

@[simp] theorem nodeCount_atom (a : α) (ts : List (Token α)) :
    nodeCount (.atom a :: ts) = nodeCount ts + 1 := by
  simp [nodeCount]

/-- There are at most as many nodes as tokens. -/
theorem nodeCount_le_length (ts : List (Token α)) : nodeCount ts ≤ ts.length :=
  List.countP_le_length

mutual

/-- A form has one node for each of its opening parentheses and atoms. -/
theorem nodeCount_tokens (f : Form α) : nodeCount f.tokens = f.size := by
  match f with
  | .atom a => simp
  | .list fs => simp [nodeCount_tokensAll fs]

/-- Forms have one node for each of their opening parentheses and atoms. -/
theorem nodeCount_tokensAll (fs : List (Form α)) :
    nodeCount (Form.tokensAll fs) = Form.sizeAll fs := by
  match fs with
  | [] => simp
  | f :: fs => simp [nodeCount_tokens f, nodeCount_tokensAll fs]

end

/-- **No stray closing parenthesis**: no prefix closes more lists than it opens. -/
def NoStray (ts : List (Token α)) : Prop := ∀ p, p <+: ts → 0 ≤ depth p

/-- **Balanced token sequences** close every list they open, and no other. -/
def Balanced (ts : List (Token α)) : Prop := NoStray ts ∧ depth ts = 0

/-! ## Reading with a stack of open lists -/

/-- **Reads a token sequence**: `current` holds the forms read so far in the innermost open list,
the last one first, and `outer` those of the lists around it. No result for a stray closing
parenthesis. -/
def read (current : List (Form α)) (outer : List (List (Form α))) :
    List (Token α) → Option (List (Form α) × List (List (Form α)))
  | [] => some (current, outer)
  | .atom a :: ts => read (.atom a :: current) outer ts
  | .leftParen :: ts => read [] (current :: outer) ts
  | .rightParen :: ts =>
      match outer with
      | [] => none
      | o :: outer => read (.list current.reverse :: o) outer ts

/-- The tokens that have been read when these forms are at hand. -/
def written (current : List (Form α)) : List (List (Form α)) → List (Token α)
  | [] => Form.tokensAll current.reverse
  | o :: outer => written o outer ++ .leftParen :: Form.tokensAll current.reverse

/-- Completing a form adds its tokens. -/
theorem written_cons (f : Form α) (current : List (Form α)) (outer : List (List (Form α))) :
    written (f :: current) outer = written current outer ++ f.tokens := by
  cases outer <;> simp [written]

variable {current current' : List (Form α)} {outer outer' : List (List (Form α))}

/-- **Reading loses no token.** -/
theorem written_of_read {ts : List (Token α)}
    (h : read current outer ts = some (current', outer')) :
    written current' outer' = written current outer ++ ts := by
  -- induction on the tokens: what is written after one of them is what was written, and it
  induction ts generalizing current outer with
  | nil =>
      simp only [read, Option.some.injEq, Prod.mk.injEq] at h
      rw [h.1, h.2, List.append_nil]
  | cons t ts ih =>
      rcases t with _ | _ | a
      · rw [read] at h
        rw [ih h]
        simp [written]
      · rcases outer with _ | ⟨o, outer⟩
        · simp [read] at h
        · rw [read] at h
          rw [ih h, written_cons]
          simp [written]
      · rw [read] at h
        rw [ih h, written_cons]
        simp

/-- The number of open lists after reading. -/
theorem length_of_read {ts : List (Token α)}
    (h : read current outer ts = some (current', outer')) :
    (outer'.length : ℤ) = outer.length + depth ts := by
  induction ts generalizing current outer with
  | nil =>
      simp only [read, Option.some.injEq, Prod.mk.injEq] at h
      simp [h.2]
  | cons t ts ih =>
      rcases t with _ | _ | a
      · rw [read] at h
        rw [ih h, depth_cons, Token.delta, List.length_cons]
        push_cast
        omega
      · rcases outer with _ | ⟨o, outer⟩
        · simp [read] at h
        · rw [read] at h
          rw [ih h, depth_cons, Token.delta, List.length_cons]
          push_cast
          omega
      · rw [read] at h
        rw [ih h, depth_cons, Token.delta, zero_add]

/-- **Reading fails exactly on a stray closing parenthesis.** -/
theorem read_eq_none_iff {ts : List (Token α)} :
    read current outer ts = none ↔ ∃ p, p <+: ts ∧ outer.length + depth p < 0 := by
  induction ts generalizing current outer with
  | nil =>
      simp only [read, reduceCtorEq, List.prefix_nil, false_iff, not_exists, not_and]
      rintro p rfl
      simp
  | cons t ts ih =>
      -- a prefix that goes below zero is not empty, so it starts with `t`
      have hstep : ∀ {n : ℤ}, 0 ≤ n →
          ((∃ p, p <+: t :: ts ∧ n + depth p < 0) ↔ ∃ p, p <+: ts ∧ n + t.delta + depth p < 0) := by
        intro n hn
        constructor
        · rintro ⟨p, hp, hlt⟩
          rcases List.prefix_cons_iff.mp hp with rfl | ⟨q, rfl, hq⟩
          · simp only [depth_nil] at hlt
            omega
          · exact ⟨q, hq, by rw [depth_cons] at hlt; omega⟩
        · rintro ⟨q, hq, hlt⟩
          exact ⟨t :: q, List.prefix_cons_iff.mpr (.inr ⟨q, rfl, hq⟩), by
            rw [depth_cons]
            omega⟩
      rw [hstep (by omega)]
      rcases t with _ | _ | a
      · rw [read, ih, List.length_cons]
        push_cast
        rfl
      · rcases outer with _ | ⟨o, outer⟩
        · simp only [read, true_iff]
          exact ⟨[], List.nil_prefix, by simp [Token.delta]⟩
        · rw [read, ih, List.length_cons]
          push_cast
          simp [Token.delta]
      · rw [read, ih]
        simp [Token.delta]

/-- **A stray closing parenthesis** stands behind a sequence of forms. -/
theorem exists_of_read_eq_none {ts : List (Token α)} (h : read current outer ts = none) :
    ∃ p rest current', ts = p ++ .rightParen :: rest ∧
      read current outer p = some (current', []) := by
  induction ts generalizing current outer with
  | nil => simp [read] at h
  | cons t ts ih =>
      rcases t with _ | _ | a
      · rw [read] at h
        obtain ⟨p, rest, current', rfl, hp⟩ := ih h
        exact ⟨.leftParen :: p, rest, current', rfl, by rw [read, hp]⟩
      · -- the first closing parenthesis outside of lists is the stray one
        rcases outer with _ | ⟨o, outer⟩
        · exact ⟨[], ts, current, rfl, rfl⟩
        · rw [read] at h
          obtain ⟨p, rest, current', rfl, hp⟩ := ih h
          exact ⟨.rightParen :: p, rest, current', rfl, by rw [read, hp]⟩
      · rw [read] at h
        obtain ⟨p, rest, current', rfl, hp⟩ := ih h
        exact ⟨.atom a :: p, rest, current', rfl, by rw [read, hp]⟩

mutual

/-- Reading the tokens of a form completes that form. -/
theorem read_tokens (f : Form α) (current : List (Form α)) (outer : List (List (Form α)))
    (ts : List (Token α)) : read current outer (f.tokens ++ ts) = read (f :: current) outer ts := by
  match f with
  | .atom a => simp [read]
  | .list fs =>
      rw [Form.tokens_list, List.cons_append, List.append_assoc, read, read_tokensAll]
      simp [read]

/-- Reading the tokens of forms completes those forms. -/
theorem read_tokensAll (fs : List (Form α)) (current : List (Form α))
    (outer : List (List (Form α))) (ts : List (Token α)) :
    read current outer (Form.tokensAll fs ++ ts) = read (fs.reverse ++ current) outer ts := by
  match fs with
  | [] => simp
  | f :: fs =>
      rw [Form.tokensAll_cons, List.append_assoc, read_tokens, read_tokensAll]
      simp

end

/-- Reading the tokens of forms gives back the forms. -/
theorem read_tokensAll_eq (fs : List (Form α)) :
    read [] [] (Form.tokensAll fs) = some (fs.reverse, []) := by
  have := read_tokensAll fs [] [] []
  rwa [List.append_nil, List.append_nil] at this

/-- **Unique derivation.** Forms are determined by their tokens. -/
theorem tokensAll_inj {fs gs : List (Form α)} :
    Form.tokensAll fs = Form.tokensAll gs ↔ fs = gs := by
  refine ⟨fun h => ?_, congrArg _⟩
  have := (read_tokensAll_eq fs).symm.trans (h ▸ read_tokensAll_eq gs)
  simpa using this

/-- A form is determined by its tokens. -/
theorem tokens_inj {f g : Form α} : f.tokens = g.tokens ↔ f = g := by
  refine ⟨fun h => ?_, congrArg _⟩
  have : Form.tokensAll [f] = Form.tokensAll [g] := by simpa using h
  simpa using tokensAll_inj.mp this

/-- No prefix is stray iff reading succeeds. -/
theorem noStray_iff {ts : List (Token α)} : NoStray ts ↔ read [] [] ts ≠ none := by
  rw [Ne, read_eq_none_iff, NoStray]
  simp

/-- **Balanced sequences are the ones that derive from forms.** -/
theorem balanced_iff_exists {ts : List (Token α)} :
    Balanced ts ↔ ∃ fs, ts = Form.tokensAll fs := by
  constructor
  · rintro ⟨hstray, hdepth⟩
    obtain ⟨⟨current, outer⟩, hread⟩ := Option.ne_none_iff_exists'.mp (noStray_iff.mp hstray)
    have hlength := length_of_read hread
    obtain rfl : outer = [] := by
      rw [hdepth] at hlength
      exact List.length_eq_zero_iff.mp (by simpa using hlength)
    exact ⟨current.reverse, by simpa [written] using (written_of_read hread).symm⟩
  · rintro ⟨fs, rfl⟩
    have hread := read_tokensAll_eq fs
    exact ⟨noStray_iff.mpr (by simp [hread]), by simpa using (length_of_read hread).symm⟩

end Sexp.Library
