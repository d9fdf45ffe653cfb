import Sexp.Parse.RoundTrip

/-! # The layout of tokens

A text is laid out as tokens with whitespace around them, where whitespace stands between any two
adjacent atoms. The tokenizer gives back the tokens of such a text (`collect_layout`), and every
text is laid out like this (`exists_laidOut`). So the slices that the tokenizer yields are the
maximal ones: what lies outside of them is whitespace, and every atom ends where a parenthesis,
whitespace or the text does (`tokenizer_exact`). -/

namespace Sexp

open Library (Answers LoopAnswers)

/-! ## Pieces of text -/

/-- The text of a token. -/
def tokenText : Token → String
  | .leftParen => "("
  | .rightParen => ")"
  | .atom value => value

/-- A token, and the whitespace in front of it. -/
structure Piece where
  /-- The whitespace. -/
  blank : String
  /-- The token. -/
  token : Token

/-- **The text of some tokens**, each with whitespace in front, and whitespace behind the last. -/
def layout : List Piece → String → String
  | [], trailing => trailing
  | p :: ps, trailing => p.blank ++ tokenText p.token ++ layout ps trailing

/-- Whether a text consists of whitespace: space, tab, LF and CR. -/
def Blank (s : String) : Prop := ∀ c ∈ s.toList, c ∈ [' ', '\t', '\n', '\r']

/-- Whitespace stands between the tokens of two pieces, if both are atoms. -/
def Piece.Apart (p q : Piece) : Prop :=
  ∀ a b, p.token = .atom a → q.token = .atom b → q.blank ≠ ""

/-- **Tokens are laid out**: there is only whitespace between them, and some of it between adjacent
atoms. -/
structure LaidOut (pieces : List Piece) (trailing : String) : Prop where
  /-- In front of every token stands whitespace. -/
  blank : ∀ p ∈ pieces, Blank p.blank
  /-- Behind the last token stands whitespace. -/
  trailing : Blank trailing
  /-- The atoms are not empty, and have no parentheses and whitespace in them. -/
  clean : ∀ p ∈ pieces, ∀ value, p.token = .atom value → CleanAtom value
  /-- Adjacent atoms are kept apart. -/
  apart : pieces.IsChain Piece.Apart

variable {p : Piece} {ps pieces : List Piece} {s trailing : String} {token : Token}
  {cs rest : List Char}

/-- The pieces behind the first one are laid out. -/
theorem LaidOut.tail (h : LaidOut (p :: ps) trailing) : LaidOut ps trailing where
  blank q hq := h.blank q (List.mem_cons_of_mem p hq)
  trailing := h.trailing
  clean q hq := h.clean q (List.mem_cons_of_mem p hq)
  apart := h.apart.tail

/-- The characters of whitespace. -/
theorem Blank.isSpace_eq (h : Blank s) : ∀ c ∈ s.toList, isSpace c = true := by
  intro c hc
  have hmem := h c hc
  simp only [List.mem_cons, List.not_mem_nil, or_false] at hmem
  simpa [isSpace] using hmem

/-- Whitespace is what consists of whitespace characters. -/
theorem blank_ofList (h : ∀ c ∈ cs, isSpace c = true) : Blank (String.ofList cs) := by
  intro c hc
  rw [String.toList_ofList] at hc
  have hspace := h c hc
  simp only [isSpace, decide_eq_true_eq] at hspace
  simpa using hspace

/-- A text that starts with whitespace ends the atom in front of it. -/
theorem Blank.endsAtom (h : Blank s) (hrest : s = "" → EndsAtom rest) :
    EndsAtom (s.toList ++ rest) := by
  rcases hs : s.toList with _ | ⟨c, cs⟩
  · exact hrest (String.toList_eq_nil_iff.mp hs)
  · refine endsAtom_cons (isStop_of_isSpace (h.isSpace_eq c ?_)) _
    rw [hs]
    exact List.mem_cons_self

/-- **Behind an atom its text ends**, when tokens are laid out behind it. -/
theorem LaidOut.endsAtom (h : LaidOut (p :: ps) trailing) {value : String}
    (hatom : p.token = .atom value) : EndsAtom (layout ps trailing).toList := by
  cases ps with
  | nil =>
      have hends := h.trailing.endsAtom fun _ => endsAtom_nil
      rwa [List.append_nil] at hends
  | cons q qs =>
      rw [layout, String.append_assoc, String.toList_append]
      refine (h.blank q (List.mem_cons_of_mem p List.mem_cons_self)).endsAtom fun hempty => ?_
      -- no whitespace, so a parenthesis
      have hapart := List.isChain_cons_cons.mp h.apart
      have hleft : isStop '(' = true := rfl
      have hright : isStop ')' = true := rfl
      rw [String.toList_append]
      rcases htoken : q.token with _ | _ | value'
      · exact endsAtom_cons hleft _
      · exact endsAtom_cons hright _
      · exact absurd hempty (hapart.1 value value' hatom htoken)

/-! ## Tokenizing a layout -/

/-- Whitespace in front of a text is skipped. -/
theorem Blank.lex_append (h : Blank s) (rest : List Char) : lex (s.toList ++ rest) = lex rest := by
  have hspaces : ∀ cs : List Char, (∀ c ∈ cs, isSpace c = true) → lex (cs ++ rest) = lex rest := by
    intro cs
    induction cs with
    | nil => exact fun _ => rfl
    | cons c cs ih =>
        intro hcs
        rw [List.cons_append, lex_space (hcs c List.mem_cons_self)]
        exact ih fun d hd => hcs d (List.mem_cons_of_mem c hd)
  exact hspaces s.toList h.isSpace_eq

/-- The text of a token, in front of a text that ends it, starts with the token. -/
theorem lex_tokenText (hatom : ∀ value, token = .atom value → CleanAtom value ∧ EndsAtom rest) :
    lex ((tokenText token).toList ++ rest) = token :: lex rest := by
  cases token with
  | leftParen => exact lex_left rest
  | rightParen => exact lex_right rest
  | atom value =>
      obtain ⟨hclean, hends⟩ := hatom value rfl
      have hne : value.toList ≠ [] := fun hnil => hclean.1 (String.toList_eq_nil_iff.mp hnil)
      rw [tokenText, lex_atom hne hclean.isStop_eq hends, String.ofList_toList]

/-- **The tokens of a layout** are the tokens that are laid out. -/
theorem tokensOf_layout (h : LaidOut pieces trailing) :
    tokensOf (layout pieces trailing) = pieces.map Piece.token := by
  rw [tokensOf]
  induction pieces with
  | nil =>
      have hblank := h.trailing.lex_append []
      rwa [List.append_nil, lex_nil] at hblank
  | cons p ps ih =>
      rw [layout, String.toList_append, String.toList_append, List.append_assoc,
        (h.blank p List.mem_cons_self).lex_append, lex_tokenText, ih h.tail]
      · rfl
      · intro value hvalue
        exact ⟨h.clean p List.mem_cons_self value hvalue, h.endsAtom hvalue⟩

/-! ## Laying out a text -/

/-- A text of characters that do not end an atom is a clean atom. -/
theorem cleanAtom_ofList (hne : cs ≠ []) (hplain : ∀ c ∈ cs, isStop c = false) :
    CleanAtom (String.ofList cs) := by
  refine ⟨fun hempty => hne ?_, fun c hc => ?_⟩
  · rwa [← String.toList_eq_nil_iff, String.toList_ofList] at hempty
  · rw [String.toList_ofList] at hc
    have hstop := hplain c hc
    simp only [isStop, isSpace, Bool.or_eq_false_iff, decide_eq_false_iff_not] at hstop
    simp only [List.mem_cons, List.not_mem_nil, or_false]
    tauto

/-- A text without a first token is whitespace. -/
theorem blank_of_lexStep (h : lexStep cs = none) : Blank (String.ofList cs) := by
  refine blank_ofList ?_
  rw [lexStep] at h
  split at h
  · rename_i hnil
    exact List.dropWhile_eq_nil_iff.mp hnil
  · cases h
  · cases h
  · cases h

/-- **A text with a first token** is whitespace, the token, and the text behind it, which ends the
token. -/
theorem split_of_lexStep (h : lexStep cs = some (token, rest)) :
    ∃ blank, Blank blank ∧ cs = blank.toList ++ (tokenText token).toList ++ rest ∧
      ∀ value, token = .atom value → CleanAtom value ∧ EndsAtom rest := by
  refine ⟨String.ofList (cs.takeWhile isSpace), blank_ofList fun c hc => ?_, ?_⟩
  · exact List.mem_takeWhile_imp hc
  · have hcs : cs = cs.takeWhile isSpace ++ cs.dropWhile isSpace :=
      List.takeWhile_append_dropWhile.symm
    rw [String.toList_ofList, List.append_assoc]
    rw [lexStep] at h
    -- no token, the two parentheses, and an atom
    split at h
    · cases h
    · rename_i heq
      cases h
      refine ⟨?_, fun value hvalue => by cases hvalue⟩
      rw [heq] at hcs
      exact hcs
    · rename_i heq
      cases h
      refine ⟨?_, fun value hvalue => by cases hvalue⟩
      rw [heq] at hcs
      exact hcs
    · rename_i c behind hleft hright heq
      simp only [Option.some.injEq, Prod.mk.injEq] at h
      obtain ⟨rfl, rfl⟩ := h
      refine ⟨?_, ?_⟩
      · rw [tokenText, String.toList_ofList, List.takeWhile_append_dropWhile, ← heq]
        exact hcs
      · rintro value ⟨rfl⟩
        have hplain : isStop c = false := by
          have hc : c ≠ '(' ∧ c ≠ ')' := ⟨hleft, hright⟩
          simp [isStop, isSpace_of_dropWhile heq, hc.1, hc.2]
        refine ⟨cleanAtom_ofList ?_ fun d hd => ?_, fun d hd => ?_⟩
        · rw [List.takeWhile_cons, if_pos (by rw [hplain]; rfl)]
          exact List.cons_ne_nil c _
        · simpa using List.mem_takeWhile_imp hd
        · -- the first character that is left out ends the atom
          have hend := List.head?_dropWhile_not (fun d => !isStop d) (c :: behind)
          rw [hd] at hend
          simpa using hend

/-- A clean atom does not end the atom in front of it. -/
theorem CleanAtom.not_endsAtom {value : String} (h : CleanAtom value) (rest : List Char) :
    ¬ EndsAtom (value.toList ++ rest) := by
  intro hends
  rcases hvalue : value.toList with _ | ⟨c, cs⟩
  · exact h.1 (String.toList_eq_nil_iff.mp hvalue)
  · rw [hvalue] at hends
    have hstop := hends c rfl
    rw [h.isStop_eq c (by rw [hvalue]; exact List.mem_cons_self)] at hstop
    cases hstop

/-- **Every text is laid out** from its tokens. -/
theorem exists_laidOut (cs : List Char) : ∃ pieces trailing, LaidOut pieces trailing ∧
    cs = (layout pieces trailing).toList ∧ pieces.map Piece.token = lex cs := by
  -- induction on the tokens: the first one is put in front of the pieces of the rest
  induction cs using lex.induct with
  | case1 cs hnone =>
      have hlaid : LaidOut [] (String.ofList cs) :=
        ⟨List.forall_mem_nil _, blank_of_lexStep hnone, List.forall_mem_nil _, .nil⟩
      refine ⟨[], String.ofList cs, hlaid, ?_, ?_⟩
      · exact String.toList_ofList.symm
      · exact (lex_of_none hnone).symm
  | case2 cs token rest hsome ih =>
      obtain ⟨pieces, trailing, hlaid, hrest, htokens⟩ := ih
      obtain ⟨blank, hblank, hcs, hatom⟩ := split_of_lexStep hsome
      refine ⟨⟨blank, token⟩ :: pieces, trailing, ⟨?_, hlaid.trailing, ?_, ?_⟩, ?_, ?_⟩
      · exact List.forall_mem_cons.mpr ⟨hblank, hlaid.blank⟩
      · exact List.forall_mem_cons.mpr ⟨fun value hvalue => (hatom value hvalue).1, hlaid.clean⟩
      · -- an atom behind an atom without whitespace would not end it
        rw [List.isChain_cons]
        refine ⟨fun q hq => ?_, hlaid.apart⟩
        intro a b ha hb hempty
        obtain ⟨qs, rfl⟩ := List.head?_eq_some_iff.mp hq
        have hclean := hlaid.clean q List.mem_cons_self b hb
        refine hclean.not_endsAtom (layout qs trailing).toList ?_
        have hends := (hatom a ha).2
        rwa [hrest, layout, hempty, hb, String.empty_append, String.toList_append] at hends
      · rw [hcs, hrest, layout, String.toList_append, String.toList_append]
      · rw [List.map_cons, htokens, lex_of_some hsome]

/-! ## Collecting the tokens -/

/-- **`collect` yields the token sequence** of every text: each call of `next` returns, and takes a
token off the text. -/
theorem collect_answers (s : String) :
    Answers (fun fuel => Tokenizer.collect fuel ⟨s⟩) (tokensOf s) := by
  suffices hloop : ∀ cs tokens, LoopAnswers .outOfFuel (fun _ => Tokenizer.collectPass)
      (⟨String.ofList cs⟩, tokens) (tokens ++ lex cs) by
    have hs := hloop s.toList []
    rw [String.ofList_toList] at hs
    exact hs.answers
  intro cs
  induction cs using lex.induct with
  | case1 cs hnone =>
      intro tokens
      rw [lex_of_none hnone, List.append_nil]
      refine .leave (.const fun _ => ?_)
      rw [Tokenizer.collectPass, next_eq, String.toList_ofList, lexNext, hnone]
      rfl
  | case2 cs token rest hsome ih =>
      intro tokens
      have hrest := ih (tokens ++ [token])
      rw [List.append_assoc, List.singleton_append, ← lex_of_some hsome] at hrest
      refine .again (.const fun _ => ?_) hrest
      rw [Tokenizer.collectPass, next_eq, String.toList_ofList, lexNext, hsome]
      rfl

/-! ## Slices -/

/-- **A slice of a text**: where it starts and stops, in bytes, and what token it is. -/
structure Slice where
  /-- The offset of its first byte. -/
  start : Nat
  /-- The offset behind its last byte. -/
  stop : Nat
  /-- The token. -/
  token : Token

/-- The slices of pieces that are laid out behind some bytes. -/
def slicesOf (offset : Nat) : List Piece → List Slice
  | [] => []
  | p :: ps =>
      let start := offset + p.blank.utf8ByteSize
      let stop := start + (tokenText p.token).utf8ByteSize
      ⟨start, stop, p.token⟩ :: slicesOf stop ps

/-- The slices of pieces are their tokens. -/
theorem token_slicesOf (offset : Nat) (ps : List Piece) :
    (slicesOf offset ps).map Slice.token = ps.map Piece.token := by
  induction ps generalizing offset with
  | nil => rfl
  | cons p ps ih => rw [slicesOf, List.map_cons, List.map_cons, ih]

/-- **A slice cuts a token out of a text**: an atom is clean, and both in front of it and behind it
stands what ends an atom. -/
def Slice.Cuts (s : String) (x : Slice) : Prop :=
  ∃ before behind : String, s = before ++ tokenText x.token ++ behind ∧
    x.start = before.utf8ByteSize ∧ x.stop = (before ++ tokenText x.token).utf8ByteSize ∧
    ∀ value, x.token = .atom value →
      CleanAtom value ∧ EndsAtom before.toList.reverse ∧ EndsAtom behind.toList

/-- What ends an atom in front of whitespace. -/
theorem Blank.endsAtom_reverse {before blank : String} (h : Blank blank)
    (hbefore : blank = "" → EndsAtom before.toList.reverse) :
    EndsAtom (before ++ blank).toList.reverse := by
  rw [String.toList_append, List.reverse_append]
  rcases hcs : blank.toList.reverse with _ | ⟨c, cs⟩
  · exact hbefore (String.toList_eq_nil_iff.mp (List.reverse_eq_nil_iff.mp hcs))
  · refine endsAtom_cons (isStop_of_isSpace (h.isSpace_eq c ?_)) _
    rw [← List.mem_reverse, hcs]
    exact List.mem_cons_self

/-- **The slices of pieces cut their tokens out** of the text. -/
theorem cuts_slicesOf (before : String) (h : LaidOut ps trailing)
    (hbefore : ∀ q ∈ ps.head?, ∀ value, q.token = .atom value → q.blank = "" →
      EndsAtom before.toList.reverse) :
    ∀ x ∈ slicesOf before.utf8ByteSize ps, x.Cuts (before ++ layout ps trailing) := by
  -- induction on the pieces, with the text in front of them growing
  induction ps generalizing before with
  | nil => exact nofun
  | cons p ps ih =>
      have htext : before ++ layout (p :: ps) trailing =
          before ++ p.blank ++ tokenText p.token ++ layout ps trailing := by
        rw [layout, String.append_assoc, String.append_assoc, String.append_assoc]
      have hstart : before.utf8ByteSize + p.blank.utf8ByteSize =
          (before ++ p.blank).utf8ByteSize := String.utf8ByteSize_append.symm
      rw [slicesOf, hstart, ← String.utf8ByteSize_append, htext]
      refine List.forall_mem_cons.mpr ⟨?_, ?_⟩
      · refine ⟨before ++ p.blank, layout ps trailing, rfl, rfl, rfl, fun value hvalue => ?_⟩
        refine ⟨h.clean p List.mem_cons_self value hvalue, ?_, h.endsAtom hvalue⟩
        exact (h.blank p List.mem_cons_self).endsAtom_reverse (hbefore p rfl value hvalue)
      · -- behind an atom without whitespace there is no atom
        refine ih (before ++ p.blank ++ tokenText p.token) h.tail fun q hq value hvalue hempty => ?_
        have hapart := (List.isChain_cons.mp h.apart).1 q hq
        have hleft : isStop '(' = true := rfl
        have hright : isStop ')' = true := rfl
        rw [String.toList_append, List.reverse_append]
        rcases htoken : p.token with _ | _ | value'
        · exact endsAtom_cons hleft _
        · exact endsAtom_cons hright _
        · exact absurd hempty (hapart value' value htoken hvalue)

/-- The slices of pieces start behind the offset. -/
theorem offset_le_slicesOf (offset : Nat) : ∀ x ∈ slicesOf offset ps, offset ≤ x.start := by
  induction ps generalizing offset with
  | nil => exact nofun
  | cons p ps ih =>
      rw [slicesOf]
      refine List.forall_mem_cons.mpr ⟨Nat.le_add_right _ _, fun x hx => ?_⟩
      have hle := ih _ x hx
      omega

/-- **The slices of pieces are disjoint**, and in order. -/
theorem pairwise_slicesOf (offset : Nat) :
    (slicesOf offset ps).Pairwise fun x y => x.stop ≤ y.start := by
  induction ps generalizing offset with
  | nil => exact .nil
  | cons p ps ih =>
      rw [slicesOf]
      exact List.pairwise_cons.mpr ⟨fun y hy => offset_le_slicesOf _ y hy, ih _⟩

/-! ## Bytes -/

/-- The bytes of parentheses. -/
def parenBytes : List UInt8 := [0x28, 0x29]

/-- The bytes of whitespace: space, tab, LF and CR. -/
def spaceBytes : List UInt8 := [0x20, 0x09, 0x0a, 0x0d]

variable {b : UInt8} {x : Slice} {value : String}

/-- The class of the bytes of whitespace. -/
theorem mem_spaceBytes : b ∈ spaceBytes ↔ stop b = 2 := by
  simp only [spaceBytes, List.mem_cons, List.not_mem_nil, or_false, stop]
  constructor
  · rintro (rfl | rfl | rfl | rfl) <;> rfl
  · intro h
    split at h
    · cases h
    · split at h
      · assumption
      · cases h

/-- The class of the bytes that stop an atom. -/
theorem mem_stopBytes : b ∈ parenBytes ++ spaceBytes ↔ stop b ≠ 0 := by
  rw [List.mem_append, mem_spaceBytes]
  simp only [parenBytes, List.mem_cons, List.not_mem_nil, or_false, stop]
  constructor
  · rintro ((rfl | rfl) | h)
    · decide
    · decide
    · rw [h]
      decide
  · intro h
    split at h
    · rename_i hparen
      exact .inl hparen
    · rename_i hparen
      split at h
      · rename_i hspace
        rw [if_neg hparen, if_pos hspace]
        exact .inr rfl
      · exact absurd rfl h

/-- A byte of a text belongs to one of its characters. -/
theorem exists_char_of_mem (h : b ∈ strBytes s) : ∃ c ∈ s.toList, stop b = charClass c := by
  rw [← String.ofList_toList (s := s), strBytes_ofList] at h
  obtain ⟨c, hc, hb⟩ := List.mem_flatMap.mp h
  exact ⟨c, hc, stop_of_mem hb⟩

/-- The bytes of whitespace. -/
theorem Blank.mem_spaceBytes (h : Blank s) : ∀ b ∈ strBytes s, b ∈ spaceBytes := by
  intro b hb
  obtain ⟨c, hc, hclass⟩ := exists_char_of_mem hb
  rw [Sexp.mem_spaceBytes, hclass]
  have hmem := h c hc
  simp only [List.mem_cons, List.not_mem_nil, or_false] at hmem
  rcases hmem with rfl | rfl | rfl | rfl <;> rfl

/-- The bytes of a clean atom do not stop it. -/
theorem CleanAtom.notMem_stopBytes (h : CleanAtom value) :
    ∀ b ∈ strBytes value, b ∉ parenBytes ++ spaceBytes := by
  intro b hb
  obtain ⟨c, hc, hclass⟩ := exists_char_of_mem hb
  have hplain := h.isStop_eq c hc
  rw [← charClass_ne_zero, decide_eq_false_iff_not, not_not] at hplain
  rw [mem_stopBytes, hclass, hplain, not_not]

/-- The bytes of a character that ends an atom stop the atom. -/
theorem mem_stopBytes_of_isStop {c : Char} (hc : isStop c = true)
    (hb : b ∈ String.utf8EncodeChar c) : b ∈ parenBytes ++ spaceBytes := by
  rw [← charClass_ne_zero, decide_eq_true_eq] at hc
  rw [mem_stopBytes, stop_of_mem hb]
  exact hc

/-- The first byte of a text that ends an atom stops the atom. -/
theorem EndsAtom.mem_stopBytes (h : EndsAtom s.toList) (hb : (strBytes s)[0]? = some b) :
    b ∈ parenBytes ++ spaceBytes := by
  rw [← String.ofList_toList (s := s), strBytes_ofList] at hb
  rcases hcs : s.toList with _ | ⟨c, cs⟩
  · rw [hcs] at hb
    cases hb
  · rw [hcs, List.flatMap_cons] at hb
    obtain ⟨d, ds, henc⟩ := List.exists_cons_of_ne_nil (@String.utf8EncodeChar_ne_nil c)
    rw [henc] at hb
    cases hb
    refine mem_stopBytes_of_isStop (h c (by rw [hcs]; rfl)) ?_
    rw [henc]
    exact List.mem_cons_self

/-- The last byte of a text that reversed ends an atom stops the atom. -/
theorem EndsAtom.mem_stopBytes_last (h : EndsAtom s.toList.reverse)
    (hb : (strBytes s).getLast? = some b) : b ∈ parenBytes ++ spaceBytes := by
  rw [← String.ofList_toList (s := s), strBytes_ofList] at hb
  rcases hcs : s.toList.reverse with _ | ⟨c, cs⟩
  · rw [List.reverse_eq_nil_iff.mp hcs] at hb
    cases hb
  · rw [List.reverse_eq_cons_iff.mp hcs, List.flatMap_append, List.flatMap_singleton] at hb
    rw [List.getLast?_append_of_ne_nil _ String.utf8EncodeChar_ne_nil] at hb
    exact mem_stopBytes_of_isStop (h c (by rw [hcs]; rfl)) (List.mem_of_getLast? hb)

/-! ## Maximal slices -/

/-- **The maximal slices of a text**, byte by byte. -/
structure MaximalMunch (s : String) (slices : List Slice) : Prop where
  /-- Every slice is a part of the text that is not empty, cut at character boundaries; its text is
  the one of its token. -/
  slice : ∀ x ∈ slices, x.start < x.stop ∧ x.stop ≤ (strBytes s).length ∧
    strSlice s x.start x.stop = .ok (tokenText x.token)
  /-- The slices are disjoint and in order. -/
  ordered : slices.Pairwise fun x y => x.stop ≤ y.start
  /-- Outside of the slices there is only whitespace. -/
  outside : ∀ i b, (strBytes s)[i]? = some b → (∀ x ∈ slices, i < x.start ∨ x.stop ≤ i) →
    b ∈ spaceBytes
  /-- Every parenthesis is a token of its own. -/
  paren : ∀ i b, (strBytes s)[i]? = some b → b ∈ parenBytes →
    ∃ x ∈ slices, x.start = i ∧ x.stop = i + 1 ∧
      x.token = if b = 0x28 then .leftParen else .rightParen
  /-- Every atom is a maximal run of bytes that are neither parentheses nor whitespace. -/
  atom : ∀ x ∈ slices, ∀ value, x.token = .atom value →
    (∀ i b, x.start ≤ i → i < x.stop → (strBytes s)[i]? = some b →
      b ∉ parenBytes ++ spaceBytes) ∧
    (∀ b, (strBytes s)[x.stop]? = some b → b ∈ parenBytes ++ spaceBytes) ∧
    ∀ i b, i + 1 = x.start → (strBytes s)[i]? = some b → b ∈ parenBytes ++ spaceBytes

namespace Slice.Cuts

/-- The bytes of a slice are the ones of its token. -/
theorem getElem?_eq (h : x.Cuts s) {i : Nat} (hstart : x.start ≤ i) (hstop : i < x.stop) :
    (strBytes s)[i]? = (strBytes (tokenText x.token))[i - x.start]? := by
  obtain ⟨before, behind, rfl, hbefore, hend, -⟩ := h
  rw [String.utf8ByteSize_append] at hend
  rw [strBytes_append, strBytes_append, List.append_assoc, hbefore, ← length_strBytes,
    List.getElem?_append_right (by rw [length_strBytes]; omega),
    List.getElem?_append_left (by rw [length_strBytes, length_strBytes]; omega)]

/-- A slice is a part of the text that is not empty. -/
theorem slice_eq (h : x.Cuts s) : x.start < x.stop ∧ x.stop ≤ (strBytes s).length ∧
    strSlice s x.start x.stop = .ok (tokenText x.token) := by
  obtain ⟨before, behind, rfl, hbefore, hend, hatom⟩ := h
  have hpos : 0 < (tokenText x.token).utf8ByteSize := by
    rcases htoken : x.token with _ | _ | value
    · exact Nat.one_pos
    · exact Nat.one_pos
    · refine Nat.pos_of_ne_zero fun hzero => (hatom value htoken).1.1 ?_
      exact String.utf8ByteSize_eq_zero_iff.mp hzero
  refine ⟨?_, ?_, ?_⟩
  · rw [hbefore, hend, String.utf8ByteSize_append]
    omega
  · rw [hend, strBytes_append, List.length_append, length_strBytes]
    exact Nat.le_add_right _ _
  · rw [hbefore, hend]
    exact strSlice_append before (tokenText x.token) behind

/-- An atom is a maximal run. -/
theorem atom_maximal (h : x.Cuts s) (htoken : x.token = .atom value) :
    (∀ i b, x.start ≤ i → i < x.stop → (strBytes s)[i]? = some b →
      b ∉ parenBytes ++ spaceBytes) ∧
    (∀ b, (strBytes s)[x.stop]? = some b → b ∈ parenBytes ++ spaceBytes) ∧
    ∀ i b, i + 1 = x.start → (strBytes s)[i]? = some b → b ∈ parenBytes ++ spaceBytes := by
  have hbytes := @getElem?_eq _ _ h
  obtain ⟨before, behind, rfl, hbefore, hend, hatom⟩ := h
  obtain ⟨hclean, hstarts, hends⟩ := hatom value htoken
  refine ⟨fun i b hstart hstop hb => ?_, fun b hb => ?_, fun i b hi hb => ?_⟩
  · rw [hbytes hstart hstop, htoken] at hb
    exact hclean.notMem_stopBytes b (List.mem_of_getElem? hb)
  · -- the first byte behind the slice
    refine hends.mem_stopBytes ?_
    rwa [strBytes_append, hend, ← length_strBytes, List.getElem?_append_right le_rfl,
      Nat.sub_self] at hb
  · -- the last byte in front of the slice
    refine hstarts.mem_stopBytes_last ?_
    rw [hbefore, ← length_strBytes] at hi
    rw [strBytes_append, strBytes_append, List.append_assoc,
      List.getElem?_append_left (by omega)] at hb
    rwa [List.getLast?_eq_getElem?, ← hi, Nat.add_sub_cancel]

/-- A slice with a parenthesis in it is that parenthesis. -/
theorem paren_eq (h : x.Cuts s) {i : Nat} (hstart : x.start ≤ i) (hstop : i < x.stop)
    (hb : (strBytes s)[i]? = some b) (hparen : b ∈ parenBytes) :
    x.start = i ∧ x.stop = i + 1 ∧ x.token = if b = 0x28 then .leftParen else .rightParen := by
  have hbytes := h.getElem?_eq hstart hstop
  rw [hb] at hbytes
  obtain ⟨before, behind, -, hbefore, hend, hatom⟩ := h
  rw [String.utf8ByteSize_append, ← hbefore] at hend
  -- a parenthesis is one byte long
  rcases htoken : x.token with _ | _ | value
  · rw [htoken] at hend hbytes
    have hone : (tokenText .leftParen).utf8ByteSize = 1 := rfl
    obtain rfl : i = x.start := by omega
    rw [Nat.sub_self] at hbytes
    cases hbytes
    exact ⟨rfl, by omega, rfl⟩
  · rw [htoken] at hend hbytes
    have hone : (tokenText .rightParen).utf8ByteSize = 1 := rfl
    obtain rfl : i = x.start := by omega
    rw [Nat.sub_self] at hbytes
    cases hbytes
    exact ⟨rfl, by omega, rfl⟩
  · rw [htoken] at hbytes
    -- no byte of an atom is a parenthesis
    have hmem := List.mem_of_getElem? hbytes.symm
    exact absurd (List.mem_append_left _ hparen)
      ((hatom value htoken).1.notMem_stopBytes b hmem)

end Slice.Cuts

/-- **Outside of the slices of pieces there is only whitespace.** -/
theorem outside_slicesOf (h : LaidOut ps trailing) (offset : Nat) {i : Nat}
    (hb : (strBytes (layout ps trailing))[i]? = some b)
    (hout : ∀ x ∈ slicesOf offset ps, offset + i < x.start ∨ x.stop ≤ offset + i) :
    b ∈ spaceBytes := by
  induction ps generalizing offset i with
  | nil => exact h.trailing.mem_spaceBytes b (List.mem_of_getElem? hb)
  | cons p ps ih =>
      rw [slicesOf] at hout
      obtain ⟨hslice, hrest⟩ := List.forall_mem_cons.mp hout
      rw [layout, strBytes_append, strBytes_append] at hb
      by_cases hblank : i < p.blank.utf8ByteSize
      · -- in the whitespace of the first piece
        have hlength := length_strBytes p.blank
        rw [List.append_assoc, List.getElem?_append_left (hlength ▸ hblank)] at hb
        exact (h.blank p List.mem_cons_self).mem_spaceBytes b (List.mem_of_getElem? hb)
      · -- behind the first slice
        have hbehind : p.blank.utf8ByteSize + (tokenText p.token).utf8ByteSize ≤ i := by
          simp only at hslice
          omega
        rw [List.getElem?_append_right (by simpa using hbehind), List.length_append,
          length_strBytes, length_strBytes] at hb
        refine ih h.tail (offset + p.blank.utf8ByteSize + (tokenText p.token).utf8ByteSize) hb ?_
        intro x hx
        have hx' := hrest x hx
        omega

/-- **The slices of laid out pieces are the maximal ones.** -/
theorem LaidOut.maximalMunch (h : LaidOut pieces trailing) :
    MaximalMunch (layout pieces trailing) (slicesOf 0 pieces) := by
  have hcuts := cuts_slicesOf "" h fun _ _ _ _ _ => endsAtom_nil
  rw [String.empty_append] at hcuts
  have houtside : ∀ i b, (strBytes (layout pieces trailing))[i]? = some b →
      (∀ x ∈ slicesOf 0 pieces, i < x.start ∨ x.stop ≤ i) → b ∈ spaceBytes := by
    intro i b hb hout
    exact outside_slicesOf h 0 hb (by simpa using hout)
  constructor
  case slice => exact fun x hx => (hcuts x hx).slice_eq
  case ordered => exact pairwise_slicesOf 0
  case outside => exact houtside
  case paren =>
    intro i b hb hparen
    have hinside : ∃ x ∈ slicesOf 0 pieces, x.start ≤ i ∧ i < x.stop := by
      by_contra hnone
      -- no parenthesis is whitespace
      have hspace := houtside i b hb fun x hx => by
        by_contra hin
        exact hnone ⟨x, hx, by omega, by omega⟩
      rw [mem_spaceBytes] at hspace
      simp only [parenBytes, List.mem_cons, List.not_mem_nil, or_false] at hparen
      rcases hparen with rfl | rfl <;> cases hspace
    obtain ⟨x, hx, hstart, hstop⟩ := hinside
    exact ⟨x, hx, (hcuts x hx).paren_eq hstart hstop hb hparen⟩
  case atom => exact fun x hx value hvalue => (hcuts x hx).atom_maximal hvalue

/-- **The tokenizer is exact and safe.** On every text, collecting the tokens ends and cuts at
character boundaries only; the tokens are the ones of the maximal slices. On every layout of tokens
it gives back the tokens. -/
theorem tokenizer_exact :
    (∀ s : String, ∃ slices, MaximalMunch s slices ∧
      Answers (fun fuel => Tokenizer.collect fuel ⟨s⟩) (slices.map Slice.token)) ∧
    ∀ pieces trailing, LaidOut pieces trailing →
      Answers (fun fuel => Tokenizer.collect fuel ⟨layout pieces trailing⟩)
        (pieces.map Piece.token) := by
  refine ⟨fun s => ?_, fun pieces trailing hlaid => ?_⟩
  · obtain ⟨pieces, trailing, hlaid, hcs, htokens⟩ := exists_laidOut s.toList
    obtain rfl := String.toList_injective hcs
    refine ⟨slicesOf 0 pieces, hlaid.maximalMunch, ?_⟩
    rw [token_slicesOf, htokens]
    exact collect_answers _
  · rw [← tokensOf_layout hlaid]
    exact collect_answers _

/-- `tokenizer_exact` at a text with two atoms, and at the layout of two atoms. -/
theorem tokenizer_exact_twoAtoms :
    (∃ slices, MaximalMunch "a b" slices) ∧
      Answers (fun fuel => Tokenizer.collect fuel ⟨"a b"⟩) [.atom "a", .atom "b"] := by
  have hblank : Blank " " := List.forall_mem_singleton.mpr (by decide)
  have hclean : ∀ value : String, value.toList.length = 1 →
      (∀ c ∈ value.toList, isStop c = false) → CleanAtom value := by
    intro value hlength hplain
    rw [← String.ofList_toList (s := value)]
    exact cleanAtom_ofList (List.length_pos_iff.mp (by omega)) hplain
  have hlaid : LaidOut [⟨"", .atom "a"⟩, ⟨" ", .atom "b"⟩] "" := by
    refine ⟨?_, nofun, ?_, ?_⟩
    · exact List.forall_mem_cons.mpr ⟨nofun, List.forall_mem_singleton.mpr hblank⟩
    · refine List.forall_mem_cons.mpr ⟨fun value hvalue => ?_, List.forall_mem_singleton.mpr
        fun value hvalue => ?_⟩
      · cases hvalue
        exact hclean "a" rfl (List.forall_mem_singleton.mpr rfl)
      · cases hvalue
        exact hclean "b" rfl (List.forall_mem_singleton.mpr rfl)
    · exact .cons_cons (fun a b _ _ => by decide) (.singleton _)
  obtain ⟨hslices, hlayout⟩ := tokenizer_exact
  obtain ⟨slices, hmunch, -⟩ := hslices "a b"
  exact ⟨⟨slices, hmunch⟩, hlayout _ _ hlaid⟩

end Sexp
