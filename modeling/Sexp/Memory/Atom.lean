import Sexp.Str

/-! # Atoms

`memory/atom.rs`: the text of an atom, kept inline when it has at most 15 bytes and on the heap
otherwise. The inner representation is sealed in the source, so only the constructors of the module
build atoms; `Atom` carries what they establish, and `as_str` reads the inline bytes without a
check. -/

namespace Sexp

/-- The most bytes an atom keeps inline (`INLINE_CAP`). -/
def inlineCap : Nat := 15

/-- The storage of an atom: an inline buffer with a length, or a heap string. -/
inductive AtomInner where
  /-- The text is the first `len` bytes of the buffer. -/
  | inline (len : UInt8) (buffer : List UInt8)
  /-- The text is on the heap. -/
  | owned (string : String)
  deriving DecidableEq

/-- What the constructors of atoms establish: an inline buffer has `INLINE_CAP` bytes, of which
the first `len` are valid UTF-8. -/
def AtomInner.Sealed : AtomInner → Prop
  | .inline len buffer =>
      buffer.length = inlineCap ∧ len.toNat ≤ inlineCap ∧
        (buffer.take len.toNat).toByteArray.IsValidUTF8
  | .owned _ => True

/-- **An atom**: sealed storage. -/
structure Atom where
  /-- The storage. -/
  inner : AtomInner
  /-- The storage is one that the constructors build. -/
  sealed_inner : inner.Sealed
  deriving DecidableEq

namespace Atom

/-- A text of at most `INLINE_CAP` bytes, padded with zeros, is valid inline storage. -/
theorem sealed_inline {value : String} (h : value.utf8ByteSize ≤ inlineCap) :
    (AtomInner.inline (UInt8.ofNat value.utf8ByteSize)
      (strBytes value ++ List.replicate (inlineCap - value.utf8ByteSize) 0)).Sealed := by
  have hlen : (UInt8.ofNat value.utf8ByteSize).toNat = value.utf8ByteSize :=
    UInt8.toNat_ofNat_of_lt' (lt_of_le_of_lt h (by decide))
  refine ⟨?_, ?_, ?_⟩
  · rw [List.length_append, length_strBytes, List.length_replicate]
    omega
  · rw [hlen]
    exact h
  · rw [hlen, ← length_strBytes, List.take_left, toByteArray_strBytes]
    exact value.isValidUTF8

/-- Creates an atom from a string slice. -/
def new (value : String) : Atom :=
  if h : value.utf8ByteSize ≤ inlineCap then
    ⟨.inline (UInt8.ofNat value.utf8ByteSize)
      (strBytes value ++ List.replicate (inlineCap - value.utf8ByteSize) 0), sealed_inline h⟩
  else ⟨.owned value, trivial⟩

/-- Creates an atom from an owned string (`From<String>`). -/
def fromString (value : String) : Atom :=
  if value.utf8ByteSize ≤ inlineCap then new value else ⟨.owned value, trivial⟩

/-- The atom as a string slice; the inline bytes are read without a UTF-8 check. -/
def asStr : Atom → String
  | ⟨.inline len buffer, h⟩ => String.ofByteArray (buffer.take len.toNat).toByteArray h.2.2
  | ⟨.owned string, _⟩ => string

/-- **Atoms are faithful**: an atom reads back as the text it was created from. -/
@[simp] theorem asStr_new (value : String) : (new value).asStr = value := by
  rw [new]
  split
  · rename_i h
    have hlen : (UInt8.ofNat value.utf8ByteSize).toNat = value.utf8ByteSize :=
      UInt8.toNat_ofNat_of_lt' (lt_of_le_of_lt h (by decide))
    rw [asStr, ← String.toByteArray_inj]
    change (List.take _ _).toByteArray = _
    rw [hlen, ← length_strBytes, List.take_left, toByteArray_strBytes]
  · rfl

end Atom

end Sexp
