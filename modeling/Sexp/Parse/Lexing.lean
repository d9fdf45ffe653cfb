import Sexp.Parse.Tokenizer
import Mathlib.Data.List.TakeWhile

/-! # The token sequence of a text

Read as characters, a text is a sequence of parentheses, whitespace and maximal runs of other
characters, the atoms (`lex`). The tokenizer, which works on bytes, yields exactly this sequence
and never slices off a character boundary: every byte that stops one of its scans is ASCII. -/

namespace Sexp

/-! ## Characters -/

/-- Whitespace between tokens. -/
def isSpace (c : Char) : Bool := c = ' ' ∨ c = '\t' ∨ c = '\n' ∨ c = '\r'

/-- The characters that end an atom: parentheses and whitespace. -/
def isStop (c : Char) : Bool := isSpace c || c = '(' || c = ')'

/-- Whitespace ends an atom. -/
theorem isStop_of_isSpace {c : Char} (h : isSpace c = true) : isStop c = true := by
  simp [isStop, h]

/-! ## The token sequence -/

/-- The first token of a text, and the text behind it. -/
def lexStep (cs : List Char) : Option (Token × List Char) :=
  match cs.dropWhile isSpace with
  | [] => none
  | '(' :: rest => some (.leftParen, rest)
  | ')' :: rest => some (.rightParen, rest)
  | c :: rest =>
      some (.atom (String.ofList ((c :: rest).takeWhile fun d => !isStop d)),
        (c :: rest).dropWhile fun d => !isStop d)

/-- The first character behind whitespace is not whitespace. -/
theorem isSpace_of_dropWhile {cs rest : List Char} {c : Char}
    (h : cs.dropWhile isSpace = c :: rest) : isSpace c = false := by
  have := List.head?_dropWhile_not isSpace cs
  rw [h] at this
  simpa using this

/-- Every token takes at least one character. -/
theorem length_lexStep {cs rest : List Char} {token : Token}
    (h : lexStep cs = some (token, rest)) : rest.length < cs.length := by
  have hdrop : (cs.dropWhile isSpace).length ≤ cs.length := List.length_dropWhile_le _ _
  rw [lexStep] at h
  split at h
  · simp at h
  · rename_i heq
    simp only [Option.some.injEq, Prod.mk.injEq] at h
    rw [heq, h.2, List.length_cons] at hdrop
    omega
  · rename_i heq
    simp only [Option.some.injEq, Prod.mk.injEq] at h
    rw [heq, h.2, List.length_cons] at hdrop
    omega
  · rename_i c rest' hleft hright heq
    -- an atom takes its first character
    have hplain : isStop c = false := by
      have hc : c ≠ '(' ∧ c ≠ ')' := ⟨hleft, hright⟩
      simp [isStop, isSpace_of_dropWhile heq, hc.1, hc.2]
    simp only [Option.some.injEq, Prod.mk.injEq] at h
    have : rest.length ≤ rest'.length := by
      rw [← h.2, List.dropWhile_cons, if_pos (by simp [hplain])]
      exact List.length_dropWhile_le _ _
    rw [heq, List.length_cons] at hdrop
    omega

/-- **The token sequence of a text**, read character by character. -/
def lex (cs : List Char) : List Token :=
  match _h : lexStep cs with
  | none => []
  | some (token, rest) => token :: lex rest
termination_by cs.length
decreasing_by exact length_lexStep _h

/-- The token sequence of a string. -/
def tokensOf (s : String) : List Token := lex s.toList

/-- A text without a first token has no tokens. -/
theorem lex_of_none {cs : List Char} (h : lexStep cs = none) : lex cs = [] := by
  rw [lex]
  split
  · rfl
  · rename_i heq
    simp [heq] at h

/-- The token sequence of a text with a first token. -/
theorem lex_of_some {cs rest : List Char} {token : Token} (h : lexStep cs = some (token, rest)) :
    lex cs = token :: lex rest := by
  rw [lex]
  split
  · rename_i heq
    simp [heq] at h
  · rename_i heq
    simp only [heq, Option.some.injEq, Prod.mk.injEq] at h
    rw [h.1, h.2]

/-- A text has at most as many tokens as characters. -/
theorem length_lex_le (cs : List Char) : (lex cs).length ≤ cs.length := by
  induction cs using lex.induct with
  | case1 cs hstep =>
      rw [lex_of_none hstep]
      exact Nat.zero_le _
  | case2 cs token rest hstep ih =>
      have hlength := length_lexStep hstep
      rw [lex_of_some hstep, List.length_cons]
      omega

@[simp] theorem lex_nil : lex [] = [] := lex_of_none rfl

/-- Whitespace between tokens is skipped. -/
theorem lex_space {c : Char} (h : isSpace c = true) (cs : List Char) : lex (c :: cs) = lex cs := by
  have hstep : lexStep (c :: cs) = lexStep cs := by
    rw [lexStep, lexStep, List.dropWhile_cons, if_pos h]
  rcases h' : lexStep cs with _ | ⟨token, rest⟩
  · rw [lex_of_none (hstep.trans h'), lex_of_none h']
  · rw [lex_of_some (hstep.trans h'), lex_of_some h']

/-- An opening parenthesis is a token of its own. -/
theorem lex_left (cs : List Char) : lex ('(' :: cs) = .leftParen :: lex cs := lex_of_some rfl

/-- A closing parenthesis is a token of its own. -/
theorem lex_right (cs : List Char) : lex (')' :: cs) = .rightParen :: lex cs := lex_of_some rfl

/-- **An atom is a maximal run** of characters that are neither parentheses nor whitespace. -/
theorem lex_atom {cs rest : List Char} (hne : cs ≠ []) (hplain : ∀ c ∈ cs, isStop c = false)
    (hrest : ∀ c, rest.head? = some c → isStop c = true) :
    lex (cs ++ rest) = .atom (String.ofList cs) :: lex rest := by
  obtain ⟨c, cs, rfl⟩ := List.exists_cons_of_ne_nil hne
  have hc : isStop c = false := hplain c List.mem_cons_self
  have hspace : isSpace c = false := by
    rcases h : isSpace c
    · rfl
    · simp [isStop, h] at hc
  have htake : (c :: cs ++ rest).takeWhile (fun d => !isStop d) = c :: cs := by
    rw [List.takeWhile_append_of_pos fun d hd => by simp [hplain d hd]]
    cases rest with
    | nil => simp
    | cons d rest => simp [hrest d rfl]
  have hdrop : (c :: cs ++ rest).dropWhile (fun d => !isStop d) = rest := by
    rw [List.dropWhile_append_of_pos fun d hd => by simp [hplain d hd]]
    cases rest with
    | nil => simp
    | cons d rest => simp [hrest d rfl]
  refine lex_of_some ?_
  rw [lexStep, List.cons_append, List.dropWhile_cons, hspace, if_neg Bool.false_ne_true]
  split
  · simp_all
  · rename_i heq
    simp only [List.cons.injEq] at heq
    simp [heq.1, isStop] at hc
  · rename_i heq
    simp only [List.cons.injEq] at heq
    simp [heq.1, isStop] at hc
  · rename_i heq
    rw [← heq, ← List.cons_append, htake, hdrop]

/-- **A text is cut in front of a parenthesis or whitespace** without changing its tokens. -/
theorem lex_append (cs : List Char) {rest : List Char}
    (hrest : ∀ c, rest.head? = some c → isStop c = true) :
    lex (cs ++ rest) = lex cs ++ lex rest := by
  -- induction on a bound of the length: the first token of `cs` is the first one of the whole text
  induction h : cs.length using Nat.strong_induction_on generalizing cs with
  | _ n ih =>
      subst h
      rcases cs with _ | ⟨c, cs⟩
      · simp
      have hcs := ih cs.length (by simp) cs rfl
      by_cases hspace : isSpace c = true
      · rw [List.cons_append, lex_space hspace, lex_space hspace, hcs]
      by_cases hleft : c = '('
      · rw [hleft, List.cons_append, lex_left, lex_left, hcs, List.cons_append]
      by_cases hright : c = ')'
      · rw [hright, List.cons_append, lex_right, lex_right, hcs, List.cons_append]
      -- an atom: the run of characters is cut off, and the text behind it is shorter
      have hplain : isStop c = false := by simp [isStop, hspace, hleft, hright]
      have hsplit := List.takeWhile_append_dropWhile (p := fun e => !isStop e) (l := c :: cs)
      generalize htake : (c :: cs).takeWhile (fun e => !isStop e) = run at hsplit
      generalize hdrop : (c :: cs).dropWhile (fun e => !isStop e) = behind at hsplit
      have hne : run ≠ [] := by
        rw [← htake, List.takeWhile_cons, hplain]
        exact List.cons_ne_nil c _
      have hrun : ∀ e ∈ run, isStop e = false := fun e he => by
        rw [← htake] at he
        simpa using List.mem_takeWhile_imp he
      have hends : ∀ e, behind.head? = some e → isStop e = true := fun e he => by
        have hhead := List.head?_dropWhile_not (fun e => !isStop e) (c :: cs)
        rw [hdrop, he] at hhead
        simpa using hhead
      have hends' : ∀ e, (behind ++ rest).head? = some e → isStop e = true := by
        intro e he
        rcases behind with _ | ⟨b, behind⟩
        · exact hrest e he
        · exact hends e he
      have hlength : behind.length < (c :: cs).length := by
        have hpos := List.length_pos_iff.mpr hne
        rw [← hsplit, List.length_append]
        omega
      rw [← hsplit, List.append_assoc, lex_atom hne hrun hends', lex_atom hne hrun hends,
        ih behind.length hlength behind rfl, List.cons_append]

/-! ## Bytes that stop a scan -/

/-- The class of a character: 1 for a parenthesis, 2 for whitespace, 0 for every other one. -/
def charClass (c : Char) : UInt8 :=
  if c = '(' ∨ c = ')' then 1 else if isSpace c then 2 else 0

/-- The first scan stops at the characters that are not whitespace. -/
theorem charClass_lt_two (c : Char) : decide (charClass c < 2) = !isSpace c := by
  by_cases hparen : c = '(' ∨ c = ')'
  · rcases hparen with rfl | rfl <;> decide
  · rcases hspace : isSpace c <;> simp [charClass, hparen, hspace]

/-- The second scan stops at parentheses and whitespace. -/
theorem charClass_ne_zero (c : Char) : decide (charClass c ≠ 0) = isStop c := by
  by_cases hparen : c = '(' ∨ c = ')'
  · rcases hparen with rfl | rfl <;> decide
  · have hc := not_or.mp hparen
    rcases hspace : isSpace c <;> simp [charClass, isStop, hc, hspace]

/-- **Every byte of a character has the class of the character**: ASCII characters are single
bytes, and no byte of another character has a class. -/
theorem stop_of_mem {c : Char} {b : UInt8} (h : b ∈ String.utf8EncodeChar c) :
    stop b = charClass c := by
  rcases utf8EncodeChar_cases c with ⟨hascii, henc⟩ | ⟨hval, henc⟩
  · -- an ASCII character is its own byte
    obtain rfl : b = c.val.toUInt8 := by simpa [henc] using h
    have hbyte : c.val.toUInt8.toNat = c.val.toNat := by
      rw [UInt32.le_iff_toNat_le] at hascii
      rw [UInt32.toNat_toUInt8]
      exact Nat.mod_eq_of_lt (lt_of_le_of_lt hascii (by decide))
    have hiff : ∀ (k : UInt8) (d : Char), k.toNat = d.val.toNat →
        (c.val.toUInt8 = k ↔ c = d) := fun k d hkd => by
      rw [← UInt8.toNat_inj, hbyte, hkd, UInt32.toNat_inj, Char.ext_iff]
    simp only [stop, charClass, isSpace, hiff 0x28 '(' rfl, hiff 0x29 ')' rfl, hiff 0x20 ' ' rfl,
      hiff 0x09 '\t' rfl, hiff 0x0a '\n' rfl, hiff 0x0d '\r' rfl, decide_eq_true_eq]
  · -- every byte of another character is above the ASCII range
    have hbyte : ∀ k : UInt8, k < 0x80 → b ≠ k := fun k hk heq =>
      absurd (heq ▸ henc b h) (UInt8.not_le.mpr hk)
    have hchar : ∀ d : Char, d.val ≤ 0x7f → c ≠ d := fun d hd heq =>
      absurd hd (UInt32.not_le.mpr (heq ▸ hval))
    have hzero : stop b = 0 := by
      rw [stop, if_neg (by simp [hbyte]), if_neg (by simp [hbyte])]
    have hclass : charClass c = 0 := by
      have hparen : ¬ (c = '(' ∨ c = ')') := by
        rintro (heq | heq) <;> exact hchar _ (by decide) heq
      have hspace : isSpace c = false := by
        simp only [isSpace, decide_eq_false_iff_not]
        rintro (heq | heq | heq | heq) <;> exact hchar _ (by decide) heq
      rw [charClass, if_neg hparen, hspace]
      rfl
    rw [hzero, hclass]

/-- A scan stops at a byte that satisfies the predicate. -/
theorem positionOrLen_append {xs ys : List UInt8} {p : UInt8 → Bool} (h : ∀ b ∈ xs, p b = false) :
    positionOrLen (xs ++ ys) p = xs.length + positionOrLen ys p := by
  have hnone : xs.findIdx? p = none := List.findIdx?_eq_none_iff.mpr h
  rw [positionOrLen, positionOrLen, List.findIdx?_append, hnone, List.length_append]
  rcases ys.findIdx? p with _ | i
  · rfl
  · simp [Nat.add_comm]

/-- **A scan over the bytes of a text** stops at the first character with the property, when all
bytes of a character agree with the character on it. -/
theorem positionOrLen_strBytes (p : UInt8 → Bool) (q : Char → Bool)
    (hpq : ∀ c, ∀ b ∈ String.utf8EncodeChar c, p b = !q c) (cs : List Char) :
    positionOrLen (strBytes (String.ofList cs)) p =
      (String.ofList (cs.takeWhile q)).utf8ByteSize := by
  rw [← length_strBytes, strBytes_ofList, strBytes_ofList]
  induction cs with
  | nil => rfl
  | cons c cs ih =>
      rw [List.flatMap_cons, List.takeWhile_cons]
      rcases hq : q c
      · rcases henc : String.utf8EncodeChar c with _ | ⟨b, bs⟩
        · exact absurd henc String.utf8EncodeChar_ne_nil
        · have hb : p b = true := by simpa [hq] using hpq c b (by simp [henc])
          simp [positionOrLen, List.findIdx?_cons, hb]
      · rw [positionOrLen_append fun b hb => by simpa [hq] using hpq c b hb, ih, if_pos rfl,
          List.flatMap_cons, List.length_append]

/-! ## The tokenizer yields the token sequence -/

/-- The token that a text starts with, and what the tokenizer keeps. -/
def lexNext (cs : List Char) : Option Token × Tokenizer :=
  match lexStep cs with
  | none => (none, ⟨""⟩)
  | some (token, rest) => (some token, ⟨String.ofList rest⟩)

/-- The first byte of a character that is not a parenthesis is not one either. -/
theorem ne_paren_of_mem {c : Char} {b : UInt8} (hb : b ∈ String.utf8EncodeChar c)
    (hleft : c ≠ '(') (hright : c ≠ ')') : b ≠ 0x28 ∧ b ≠ 0x29 := by
  have hclass : stop b ≠ 1 := by
    rw [stop_of_mem hb, charClass, if_neg (by simp [hleft, hright])]
    split <;> decide
  exact ⟨by rintro rfl; exact hclass rfl, by rintro rfl; exact hclass rfl⟩

/-- The first scan ends behind the whitespace at the start of the text. -/
theorem position_space (cs : List Char) :
    positionOrLen (strBytes (String.ofList cs)) (fun b => stop b < 2) =
      (String.ofList (cs.takeWhile isSpace)).utf8ByteSize :=
  positionOrLen_strBytes _ _ (fun c b hb => by rw [stop_of_mem hb, charClass_lt_two]) cs

/-- The second scan ends behind the atom at the start of the text. -/
theorem position_atom (cs : List Char) :
    positionOrLen (strBytes (String.ofList cs)) (fun b => stop b ≠ 0) =
      (String.ofList (cs.takeWhile fun d => !isStop d)).utf8ByteSize :=
  positionOrLen_strBytes _ _
    (fun c b hb => by rw [stop_of_mem hb, charClass_ne_zero, Bool.not_not]) cs

/-- **The tokenizer is exact and safe.** On every text it returns, and yields the first token and
the text behind it. -/
theorem next_eq (s : String) : Tokenizer.next ⟨s⟩ = .ok (lexNext s.toList) := by
  obtain ⟨cs, rfl⟩ : ∃ cs, s = String.ofList cs := ⟨s.toList, String.ofList_toList.symm⟩
  rw [String.toList_ofList, Tokenizer.next, lexNext, lexStep]
  simp only [position_space, length_strBytes]
  have hcs : String.ofList cs =
      String.ofList (cs.takeWhile isSpace) ++ String.ofList (cs.dropWhile isSpace) := by
    rw [← String.ofList_append, List.takeWhile_append_dropWhile]
  generalize String.ofList (cs.takeWhile isSpace) = ws at hcs ⊢
  rw [hcs]
  have hget : ∀ t : String, (strBytes (ws ++ t))[ws.utf8ByteSize]? = (strBytes t)[0]? := fun t => by
    rw [strBytes_append, List.getElem?_append_right (by simp)]
    simp
  have hdrop : ∀ t : String, (strBytes (ws ++ t)).drop ws.utf8ByteSize = strBytes t := fun t => by
    rw [strBytes_append, List.drop_append_of_le_length (by simp), List.drop_of_length_le (by simp),
      List.nil_append]
  -- cutting the text behind `a`
  have hcut : ∀ a b : String, ∀ i, i = a.utf8ByteSize →
      strSlice (a ++ b) i (a ++ b).utf8ByteSize = .ok b := fun a b i hi => by
    rw [hi, strSlice_append_right]
  rcases hrest : cs.dropWhile isSpace with _ | ⟨c, rest⟩
  · have hbyte : (strBytes (String.ofList []))[0]? = none := rfl
    rw [hget, hbyte]
    simp only [hcut ws _ _ rfl, Library.ok_bind, String.ofList_nil]
    rfl
  · obtain ⟨b, bs, henc⟩ := List.exists_cons_of_ne_nil (@String.utf8EncodeChar_ne_nil c)
    have hbyte : (strBytes (String.ofList (c :: rest)))[0]? = some b := by
      rw [strBytes_ofList, List.flatMap_cons, henc]
      rfl
    have hcons : String.ofList (c :: rest) = String.ofList [c] ++ String.ofList rest := by
      rw [← String.ofList_append, List.singleton_append]
    rw [hget, hbyte]
    by_cases hleft : c = '('
    · subst hleft
      have hhead : (String.utf8EncodeChar '(').head? = some 0x28 := by decide
      obtain rfl : b = 0x28 := by simpa [henc] using hhead
      rw [hcons, ← String.append_assoc]
      simp only [hcut (ws ++ String.ofList ['(']) _ (ws.utf8ByteSize + 1)
        (by rw [String.utf8ByteSize_append]; rfl), Library.ok_bind]
      rfl
    · by_cases hright : c = ')'
      · subst hright
        have hhead : (String.utf8EncodeChar ')').head? = some 0x29 := by decide
        obtain rfl : b = 0x29 := by simpa [henc] using hhead
        rw [hcons, ← String.append_assoc]
        simp only [hcut (ws ++ String.ofList [')']) _ (ws.utf8ByteSize + 1)
          (by rw [String.utf8ByteSize_append]; rfl), Library.ok_bind]
        rfl
      · have hmem : b ∈ String.utf8EncodeChar c := by simp [henc]
        obtain ⟨hb28, hb29⟩ := ne_paren_of_mem hmem hleft hright
        have hsplit : String.ofList (c :: rest) =
            String.ofList ((c :: rest).takeWhile fun d => !isStop d) ++
              String.ofList ((c :: rest).dropWhile fun d => !isStop d) := by
          rw [← String.ofList_append, List.takeWhile_append_dropWhile]
        have hslice := strSlice_append ws
          (String.ofList ((c :: rest).takeWhile fun d => !isStop d))
          (String.ofList ((c :: rest).dropWhile fun d => !isStop d))
        rw [hdrop, position_atom, hsplit, ← String.append_assoc, ← String.utf8ByteSize_append]
        simp only [hslice, hcut (ws ++ _) _ _ rfl, Library.ok_bind]
        rfl

end Sexp
