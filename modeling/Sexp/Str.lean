import Sexp.Exec
import Mathlib.Tactic.Common

/-! # Strings of the code

A Rust `str` is a Lean `String`: valid UTF-8 by construction. The code reads the bytes of a string
and cuts slices out of it at byte offsets, which panics off a character boundary. The lemmas here
relate bytes to characters: every byte of the encoding of a character beyond ASCII is at least
`0x80`. -/

namespace Sexp

/-! ## Bytes -/

/-- The bytes of a string (`as_bytes`). -/
def strBytes (s : String) : List UInt8 := s.toByteArray.data.toList

@[simp] theorem length_strBytes (s : String) : (strBytes s).length = s.utf8ByteSize := rfl

/-- The bytes of a string are its UTF-8 encoding. -/
theorem toByteArray_strBytes (s : String) : (strBytes s).toByteArray = s.toByteArray := by
  rw [ByteArray.ext_iff, List.data_toByteArray, strBytes, Array.toArray_toList]

/-- Strings with the same bytes are equal. -/
theorem strBytes_inj {s t : String} : strBytes s = strBytes t ↔ s = t := by
  refine ⟨fun h => ?_, congrArg strBytes⟩
  rw [← String.toByteArray_inj, ← toByteArray_strBytes, h, toByteArray_strBytes]

/-- The bytes of a concatenation. -/
@[simp] theorem strBytes_append (s t : String) : strBytes (s ++ t) = strBytes s ++ strBytes t := by
  rw [strBytes, String.toByteArray_append, ByteArray.data_append, Array.toList_append]
  rfl

/-- The bytes of a string of characters. -/
theorem strBytes_ofList (cs : List Char) :
    strBytes (String.ofList cs) = cs.flatMap String.utf8EncodeChar := by
  rw [strBytes, String.toByteArray_ofList, List.utf8Encode, List.data_toByteArray]

/-- Setting the highest bit of a byte gives at least `0x80`. -/
theorem le_or_of_le {a b : UInt8} (h : 0x80 ≤ b) : 0x80 ≤ a ||| b := by
  rw [UInt8.le_iff_toNat_le] at h ⊢
  rw [UInt8.toNat_or]
  exact le_trans h Nat.right_le_or

/-- **ASCII and the rest.** A character is encoded as the byte of its value if it is below `0x80`,
and as bytes from `0x80` on otherwise. -/
theorem utf8EncodeChar_cases (c : Char) :
    (c.val ≤ 0x7f ∧ String.utf8EncodeChar c = [c.val.toUInt8]) ∨
      (0x7f < c.val ∧ ∀ b ∈ String.utf8EncodeChar c, 0x80 ≤ b) := by
  rcases c.utf8Size_eq with h | h | h | h
  · exact .inl ⟨Char.utf8Size_eq_one_iff.mp h, String.utf8EncodeChar_eq_singleton h⟩
  all_goals
    refine .inr ⟨UInt32.not_le.mp fun hle => ?_, fun b hb => ?_⟩
    · rw [Char.utf8Size_eq_one_iff.mpr hle] at h
      omega
  · rw [String.utf8EncodeChar_eq_cons_cons h] at hb
    simp only [List.mem_cons, List.not_mem_nil, or_false] at hb
    rcases hb with rfl | rfl <;> exact le_or_of_le (by decide)
  · rw [String.utf8EncodeChar_eq_cons_cons_cons h] at hb
    simp only [List.mem_cons, List.not_mem_nil, or_false] at hb
    rcases hb with rfl | rfl | rfl <;> exact le_or_of_le (by decide)
  · rw [String.utf8EncodeChar_eq_cons_cons_cons_cons h] at hb
    simp only [List.mem_cons, List.not_mem_nil, or_false] at hb
    rcases hb with rfl | rfl | rfl | rfl <;> exact le_or_of_le (by decide)

/-! ## Slices -/

/-- The slice `&s[start..stop]`: panics unless both offsets are character boundaries, in order. -/
def strSlice (s : String) (start stop : Nat) : Exec String :=
  if h : start ≤ stop ∧ (⟨start⟩ : String.Pos.Raw).IsValid s ∧ (⟨stop⟩ : String.Pos.Raw).IsValid s
  then .ok (s.extract (s.pos ⟨start⟩ h.2.1) (s.pos ⟨stop⟩ h.2.2))
  else .error (.panic .notCharBoundary)

/-- Slicing between the parts of a concatenation. -/
theorem strSlice_append (a b c : String) :
    strSlice (a ++ b ++ c) a.utf8ByteSize (a ++ b).utf8ByteSize = .ok b := by
  have hstart : (⟨a.utf8ByteSize⟩ : String.Pos.Raw).IsValid (a ++ b ++ c) := by
    rw [String.append_assoc]
    exact String.Pos.Raw.isValid_iff_exists_append.mpr ⟨a, b ++ c, rfl, rfl⟩
  have hstop : (⟨(a ++ b).utf8ByteSize⟩ : String.Pos.Raw).IsValid (a ++ b ++ c) :=
    String.Pos.Raw.isValid_iff_exists_append.mpr ⟨a ++ b, c, rfl, rfl⟩
  have hle : a.utf8ByteSize ≤ (a ++ b).utf8ByteSize := by
    rw [String.utf8ByteSize_append]
    omega
  have hdrop : (strBytes a).drop a.utf8ByteSize = [] := List.drop_of_length_le (by simp)
  have htake : (strBytes b).take b.utf8ByteSize = strBytes b := List.take_of_length_le (by simp)
  rw [strSlice, dif_pos ⟨hle, hstart, hstop⟩, Except.ok.injEq, ← strBytes_inj, strBytes,
    String.toByteArray_extract]
  rw [strBytes] at hdrop htake
  simp [hdrop, htake, strBytes]

/-- Slicing off a front part. -/
theorem strSlice_append_right (a b : String) :
    strSlice (a ++ b) a.utf8ByteSize (a ++ b).utf8ByteSize = .ok b := by
  have := strSlice_append a b ""
  rwa [String.append_empty] at this

end Sexp
