import Sexp.Parse.AnyText
import Sexp.Parse.Layout
import Sexp.Py.Cache

/-! # The canonical text

`repr(parse(s))` is the text of the form of `s`, with one space between adjacent forms, or empty
when `s` is blank. It has the tokens of `s`, so that parsing it and taking its text again changes
nothing, and two texts that are accepted have the same canonical text iff they have the same tokens
(`repr_parse_canonical`). -/

namespace Sexp

open Library (Answers Form)

variable {s s' text : String} {w : World}

/-! ## Texts with the same tokens -/

/-- A text is accepted by `parse`. -/
def Accepted (s : String) : Prop := ∃ tree, Answers (fun fuel => parse fuel s) (.ok tree)

/-- Two texts have the same tokens. -/
def SameTokens (s s' : String) : Prop :=
  ∃ tokens, Answers (fun fuel => Tokenizer.collect fuel ⟨s⟩) tokens ∧
    Answers (fun fuel => Tokenizer.collect fuel ⟨s'⟩) tokens

/-- Texts have the same tokens iff their token sequences agree. -/
theorem sameTokens_iff : SameTokens s s' ↔ tokensOf s = tokensOf s' := by
  constructor
  · rintro ⟨tokens, h, h'⟩
    rw [(collect_answers s).unique h, (collect_answers s').unique h']
  · intro htokens
    exact ⟨tokensOf s, collect_answers s, htokens ▸ collect_answers s'⟩

/-- The atoms of a text are clean. -/
theorem cleanTokens_tokensOf (s : String) : CleanTokens (tokensOf s) := by
  obtain ⟨pieces, trailing, hlaid, -, htokens⟩ := exists_laidOut s.toList
  intro value hvalue
  rw [tokensOf, ← htokens] at hvalue
  obtain ⟨p, hp, hatom⟩ := List.mem_map.mp hvalue
  exact hlaid.clean p hp value hatom

/-! ## Texts that are tokens -/

/-- **A text is a token by itself**: it has one token, the atom with this text. -/
def LoneAtom (text : String) : Prop :=
  Answers (fun fuel => Tokenizer.collect fuel ⟨text⟩) [.atom text]

/-- The texts that are tokens by themselves are the clean atoms: they are not empty, and have no
parentheses and no whitespace in them. -/
theorem loneAtom_iff : LoneAtom text ↔ CleanAtom text := by
  constructor
  · intro hlone
    have htokens := (collect_answers text).unique hlone
    apply cleanTokens_tokensOf text
    rw [htokens]
    exact List.mem_singleton_self _
  · intro hclean
    have htokens : tokensOf (print (.atom text)) = (Form.atom text).tokens := by
      apply tokensOf_print
      intro value hvalue
      rw [Form.tokens_atom, List.mem_singleton] at hvalue
      cases hvalue
      exact hclean
    rw [print, Form.tokens_atom] at htokens
    rw [LoneAtom, ← htokens]
    exact collect_answers text

/-! ## `repr(parse(s))` -/

/-- `repr(parse(s))`. -/
def reprParse (fuel : Nat) (s : String) : PyM String := do
  let ref ← pyParse fuel (.str s)
  SExp.repr fuel ref

/-- **The canonical text of a text**: what `repr(parse(s))` returns, whatever objects exist. -/
def CanonicalText (s text : String) : Prop :=
  ∀ w, ∃ w', Answers (fun fuel => reprParse fuel s w) (.ok text, w')

/-- A text has at most one canonical text. -/
theorem CanonicalText.unique {text' : String} (h : CanonicalText s text)
    (h' : CanonicalText s text') : text = text' := by
  obtain ⟨w, hanswers⟩ := h World.empty
  obtain ⟨w', hanswers'⟩ := h' World.empty
  have heq := hanswers.unique hanswers'
  cases heq
  rfl

/-- **The canonical text of an accepted text** is the text of the root of its tree. -/
theorem canonicalText_of_parse {tree : Tree}
    (hparse : Answers (fun fuel => parse fuel s) (.ok tree))
    (hrepr : Answers (fun fuel => uncachedRepr fuel tree tree.root) text) :
    CanonicalText s text := by
  intro w
  -- the objects with the parsed tree, and a handle to its root
  let w₁ : World :=
    { w with
      trees := w.trees ++ [tree]
      handles := w.handles ++ [⟨w.trees.length, tree.root, tree.version⟩] }
  have hrec : w₁.Receives w.handles.length ⟨w.trees.length, tree.root, tree.version⟩ tree := by
    refine ⟨?_, ?_, ?_⟩
    · rw [List.getElem?_append_right le_rfl, Nat.sub_self]
      rfl
    · rw [List.getElem?_append_right le_rfl, Nat.sub_self]
      rfl
    · simp [Handle.isStale]
  obtain ⟨fuel₀, hfuel₀⟩ := hparse.exists_fuel
  have hcache : tree.CacheValid := .of_none (parse_slab hfuel₀) (parse_reprCache hfuel₀)
  obtain ⟨w', bound, hbound⟩ := SExp.repr_answers hrec hcache hrepr
  obtain ⟨bound', hbound'⟩ := hparse
  refine ⟨w', max bound bound', fun fuel hle => ?_⟩
  have htree : parse fuel s = .ok (.ok tree) := hbound' fuel (le_trans (le_max_right _ _) hle)
  have hok : pyParse fuel (.str s) w = .ok (.ok w.handles.length, w₁) := by
    have hlift : PyM.lift (parse fuel s) w = .ok (.ok (.ok tree), w) :=
      PyM.lift_eq_ok.mpr ⟨_, htree, rfl, rfl⟩
    rw [pyParse, parseSource, PyM.bind_of_ok hlift]
    rfl
  change reprParse fuel s w = _
  rw [reprParse, PyM.bind_of_ok hok]
  exact hbound fuel (le_trans (le_max_left _ _) hle)

/-! ## The tokens decide -/

/-- **The text of a token sequence**: nothing without tokens, and else the text of the form. -/
inductive TextOfTokens : List Token → String → Prop where
  /-- No tokens. -/
  | blank : TextOfTokens [] ""
  /-- The tokens of a form. -/
  | form (form : Form String) (hsize : form.size ≤ 2 ^ 32) : TextOfTokens form.tokens (print form)

/-- Every accepted text has a token sequence with a text. -/
theorem Accepted.textOfTokens (h : Accepted s) (hfew : (tokensOf s).length < 2 ^ 32) :
    ∃ text, TextOfTokens (tokensOf s) text := by
  obtain ⟨tree, hparse⟩ := h
  obtain ⟨result, hresult, -, -, -, hok, -⟩ := parse_classifies s hfew
  obtain rfl := hresult.unique hparse
  rcases hok.mp ⟨tree, rfl⟩ with hnil | ⟨form, hform⟩
  · rw [hnil]
    exact ⟨"", .blank⟩
  · have hsize : form.size ≤ 2 ^ 32 := by
      rw [← Library.nodeCount_tokens, ← hform]
      exact le_trans (Library.nodeCount_le_length _) hfew.le
    rw [hform]
    exact ⟨print form, .form form hsize⟩

namespace TextOfTokens

/-- The text of the tokens of an accepted text has these tokens. -/
theorem tokensOf_eq {tokens : List Token} (h : TextOfTokens tokens text)
    (hclean : CleanTokens tokens) : tokensOf text = tokens := by
  cases h with
  | blank => exact lex_nil
  | form form hsize => exact tokensOf_print hclean

/-- **A text with these tokens is accepted**, and this is its canonical text. -/
theorem canonicalText {tokens : List Token} (h : TextOfTokens tokens text)
    (hs : tokensOf s = tokens) : Accepted s ∧ CanonicalText s text := by
  cases h with
  | blank =>
      obtain ⟨tree, hbare⟩ : ∃ tree, Tree.newBare = .ok tree := ⟨_, rfl⟩
      have hparse := parse_empty hs hbare
      refine ⟨⟨tree, hparse⟩, canonicalText_of_parse hparse (.const fun fuel => ?_)⟩
      rw [newBare_eq hbare]
      rfl
  | form form hsize =>
      obtain ⟨tree, hparse, hspells⟩ := parse_form hs hsize
      obtain ⟨m, hm⟩ := Option.isSome_iff_exists.mp hspells.wellFormed.root_live
      have hrepr := uncachedRepr_answers hspells.denotes hm
      rw [if_neg fun h => by rw [hspells.bare_eq] at h; cases h.1] at hrepr
      exact ⟨⟨tree, hparse⟩, canonicalText_of_parse hparse hrepr⟩

end TextOfTokens

/-- **Encoding undoes decoding up to layout.** Every accepted text of fewer than `2 ^ 32` tokens has
a canonical text; it has the same tokens, is accepted, and is its own canonical text. Another
accepted text has the same canonical text iff it has the same tokens. -/
theorem repr_parse_canonical (haccepted : Accepted s) (hfew : (tokensOf s).length < 2 ^ 32) :
    ∃ text, CanonicalText s text ∧ SameTokens text s ∧ Accepted text ∧ CanonicalText text text ∧
      ∀ s' text', Accepted s' → (tokensOf s').length < 2 ^ 32 → CanonicalText s' text' →
        (text' = text ↔ SameTokens s' s) := by
  obtain ⟨text, htext⟩ := haccepted.textOfTokens hfew
  have htokens : tokensOf text = tokensOf s := htext.tokensOf_eq (cleanTokens_tokensOf s)
  obtain ⟨haccepted', hfixed⟩ := htext.canonicalText htokens
  refine ⟨text, (htext.canonicalText rfl).2, sameTokens_iff.mpr htokens, haccepted', hfixed, ?_⟩
  intro s' text' hs' hfew' hcanonical
  rw [sameTokens_iff]
  constructor
  · -- the canonical text has the tokens of both
    rintro rfl
    obtain ⟨text'', htext''⟩ := hs'.textOfTokens hfew'
    obtain rfl := hcanonical.unique (htext''.canonicalText rfl).2
    rw [← htokens, htext''.tokensOf_eq (cleanTokens_tokensOf s')]
  · intro hsame
    exact hcanonical.unique (htext.canonicalText hsame).2

/-- `repr_parse_canonical` at a text of lists and atoms with another layout than the canonical one.
-/
theorem repr_parse_canonical_mixed :
    CanonicalText " ((a(b))\tc ( ))" "((a (b)) c ())" ∧
      SameTokens "((a (b)) c ())" " ((a(b))\tc ( ))" := by
  have hparsed : Sexp.parse 40 " ((a(b))\tc ( ))" = .ok (.ok mixedTree) := by decide +kernel
  have hparse := (parse_mono _).answers hparsed
  have hprinted : uncachedRepr 20 mixedTree ⟨0⟩ = .ok "((a (b)) c ())" := by decide +kernel
  have hcanonical := canonicalText_of_parse hparse ((uncachedRepr_mono _ _).answers hprinted)
  have hfew : (tokensOf " ((a(b))\tc ( ))").length < 2 ^ 32 :=
    lt_of_le_of_lt (length_lex_le _) (by decide)
  obtain ⟨text, htext, hsame, -⟩ := repr_parse_canonical ⟨_, hparse⟩ hfew
  obtain rfl := htext.unique hcanonical
  exact ⟨htext, hsame⟩

end Sexp
