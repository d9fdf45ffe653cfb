import Sexp.Library.Form
import Sexp.Str

/-! # The tokenizer

`parse/tokenizer.rs`: scans the bytes of the remaining input by a classification table and cuts
slices out of it. The slices of the source borrow from the input; here they are strings. -/

namespace Sexp

open Library (Pass)

/-- A single lexical unit of an S-expression. -/
abbrev Token := Library.Token String

/-- Per-byte classification table (`STOP`): 1 for a parenthesis, 2 for space, tab, LF and CR, 0 for
every other byte. -/
def stop (b : UInt8) : UInt8 :=
  if b = 0x28 ∨ b = 0x29 then 1
  else if b = 0x20 ∨ b = 0x09 ∨ b = 0x0a ∨ b = 0x0d then 2
  else 0

/-- The offset of the first byte that satisfies the predicate, or the number of bytes
(`bytes.iter().position(..).unwrap_or(bytes.len())`). -/
def positionOrLen (bytes : List UInt8) (p : UInt8 → Bool) : Nat :=
  (bytes.findIdx? p).getD bytes.length

/-- Lazily tokenizes an S-expression input string. -/
structure Tokenizer where
  /-- The input that is not tokenized yet. -/
  remaining : String

namespace Tokenizer

/-- The next token, and the tokenizer behind it. -/
def next (tokenizer : Tokenizer) : Exec (Option Token × Tokenizer) := do
  let bytes := strBytes tokenizer.remaining
  -- skip leading whitespace: the classes 0 and 1 stop the scan
  let start := positionOrLen bytes fun b => stop b < 2
  match bytes[start]? with
  | none => return (none, ⟨← strSlice tokenizer.remaining start bytes.length⟩)
  | some 0x28 =>
      return (some .leftParen, ⟨← strSlice tokenizer.remaining (start + 1) bytes.length⟩)
  | some 0x29 =>
      return (some .rightParen, ⟨← strSlice tokenizer.remaining (start + 1) bytes.length⟩)
  | some _ =>
      -- the end of the atom: a parenthesis or whitespace
      let length := positionOrLen (bytes.drop start) fun b => stop b ≠ 0
      let atom ← strSlice tokenizer.remaining start (start + length)
      return (some (.atom atom),
        ⟨← strSlice tokenizer.remaining (start + length) bytes.length⟩)

/-- One pass of `collect`: calls `next`. -/
def collectPass : Tokenizer × List Token → Exec (Pass (Tokenizer × List Token) (List Token))
  | (tokenizer, tokens) => do
      match ← tokenizer.next with
      | (none, _) => return .leave tokens
      | (some token, rest) => return .again (rest, tokens ++ [token])

/-- All tokens, by calling `next` until there is none (`collect`). -/
def collect (fuel : Nat) (tokenizer : Tokenizer) : Exec (List Token) :=
  whileLoop fuel (tokenizer, []) collectPass

end Tokenizer

end Sexp
