import Sexp.Memory.Atom

/-! # Equality and hashing of atoms

`Atom` and its inner storage derive `PartialEq` and `Hash`, so both read the representation: the
variant, the length and the whole inline buffer, padding included. They agree with the equality of
texts because the two constructors choose the variant from the byte length alone and pad with
zeros. -/

namespace Sexp

/-! ## The derived equality -/

/-- The derived `==` of the storage: the variants are compared first, then the fields. -/
def AtomInner.eq : AtomInner → AtomInner → Bool
  | .inline len buffer, .inline len' buffer' => len == len' && buffer == buffer'
  | .owned string, .owned string' => string == string'
  | _, _ => false

/-- The derived `==` compares everything that the storage holds. -/
@[simp] theorem AtomInner.eq_iff {a b : AtomInner} : a.eq b = true ↔ a = b := by
  cases a with
  | inline len buffer =>
    cases b with
    | inline len' buffer' => simp [AtomInner.eq]
    | owned string' => simp [AtomInner.eq]
  | owned string =>
    cases b with
    | inline len' buffer' => simp [AtomInner.eq]
    | owned string' => simp [AtomInner.eq]

/-! ## The derived hash input -/

/-- A call that hashing makes on its `Hasher`. -/
inductive HasherWrite where
  /-- `write_isize`: the discriminant of a variant. -/
  | writeIsize (i : Nat)
  /-- `write_usize`: the length prefix of a slice. -/
  | writeUsize (i : Nat)
  /-- `write_u8`: one byte. -/
  | writeU8 (i : UInt8)
  /-- `write`: a run of bytes. -/
  | write (bytes : List UInt8)
  deriving DecidableEq

/-- The low bytes of a word, lowest first. -/
def leBytes : Nat → Nat → List UInt8
  | 0, _ => []
  | width + 1, n => UInt8.ofNat n :: leBytes width (n / 256)

/-- The bytes that a call adds to the hash input; a machine word has eight. -/
def HasherWrite.input : HasherWrite → List UInt8
  | .writeIsize i => leBytes 8 i
  | .writeUsize i => leBytes 8 i
  | .writeU8 i => [i]
  | .write bytes => bytes

/-- The derived hash of the storage: the discriminant, then the fields in order. An array hashes as
a slice, with its length in front; a string hashes as its bytes with `0xff` behind. -/
def AtomInner.hash : AtomInner → List HasherWrite
  | .inline len buffer => [.writeIsize 0, .writeU8 len, .writeUsize buffer.length, .write buffer]
  | .owned string => [.writeIsize 1, .write (strBytes string), .writeU8 0xff]

/-- The bytes that the derived hash feeds to the hasher. -/
def AtomInner.hashInput (a : AtomInner) : List UInt8 := a.hash.flatMap HasherWrite.input

/-- **The hash input is faithful**: sealed storage with the same hash input is the same. -/
theorem AtomInner.hashInput_inj {a b : AtomInner} (ha : a.Sealed) (hb : b.Sealed) :
    a.hashInput = b.hashInput ↔ a = b := by
  refine ⟨fun h => ?_, congrArg AtomInner.hashInput⟩
  cases a with
  | inline len buffer =>
    cases b with
    | inline len' buffer' =>
      -- the buffers have the same length, so the prefixes agree and the rest is read off
      have hlength : buffer.length = buffer'.length := ha.1.trans hb.1.symm
      simp only [hashInput, hash, List.flatMap_cons, HasherWrite.input, hlength] at h
      have hrest := List.append_cancel_left h
      rw [List.singleton_append, List.singleton_append, List.cons.injEq] at hrest
      have hbuffer := List.append_cancel_left hrest.2
      rw [List.flatMap_nil, List.append_nil, List.append_nil] at hbuffer
      rw [hrest.1, hbuffer]
    | owned string' => simp [hashInput, hash, HasherWrite.input, leBytes] at h
  | owned string =>
    cases b with
    | inline len' buffer' => simp [hashInput, hash, HasherWrite.input, leBytes] at h
    | owned string' =>
      simp only [hashInput, hash, List.flatMap_cons, HasherWrite.input] at h
      have hbytes := List.append_cancel_right (List.append_cancel_left h)
      rw [strBytes_inj.mp hbytes]

/-! ## Atoms -/

namespace Atom

/-- The derived `==` of atoms. -/
def eq (a b : Atom) : Bool := a.inner.eq b.inner

/-- The bytes that the derived hash of an atom feeds to the hasher. -/
def hashInput (a : Atom) : List UInt8 := a.inner.hashInput

/-- Both constructors build the same atom. -/
theorem fromString_eq (value : String) : fromString value = new value := by
  unfold fromString new
  split
  · rfl
  · rfl

/-- Creating atoms loses nothing. -/
theorem new_inj {s t : String} : new s = new t ↔ s = t := by
  refine ⟨fun h => ?_, congrArg new⟩
  rw [← asStr_new s, h, asStr_new]

/-- The derived `==` decides the equality of atoms. -/
@[simp] theorem eq_iff {a b : Atom} : a.eq b = true ↔ a = b := by
  rw [eq, AtomInner.eq_iff]
  refine ⟨fun h => ?_, congrArg inner⟩
  cases a
  cases b
  simpa using h

/-- Equal hash inputs come from equal atoms. -/
theorem hashInput_inj {a b : Atom} : a.hashInput = b.hashInput ↔ a = b := by
  rw [hashInput, hashInput, AtomInner.hashInput_inj a.sealed_inner b.sealed_inner,
    ← AtomInner.eq_iff]
  exact eq_iff

/-- What a new atom keeps inline: the length, untruncated, and the bytes of the text, then zeros. -/
theorem inner_new_of_le {value : String} (h : value.utf8ByteSize ≤ inlineCap) :
    (new value).inner = .inline (UInt8.ofNat value.utf8ByteSize)
      (strBytes value ++ List.replicate (inlineCap - value.utf8ByteSize) 0) := by
  rw [new, dif_pos h]

/-- A longer text goes to the heap. -/
theorem inner_new_of_lt {value : String} (h : inlineCap < value.utf8ByteSize) :
    (new value).inner = .owned value := by
  rw [new, dif_neg (Nat.not_le.mpr h)]

/-- **Inline storage is faithful**: the length is not truncated, and the bytes that it covers are
those of the text, so they are valid UTF-8. -/
theorem inline_faithful {value : String} {len : UInt8} {buffer : List UInt8}
    (h : (new value).inner = .inline len buffer) :
    len.toNat = value.utf8ByteSize ∧ buffer.take len.toNat = strBytes value := by
  rcases Nat.lt_or_ge inlineCap value.utf8ByteSize with hlt | hle
  · rw [inner_new_of_lt hlt] at h
    cases h
  · rw [inner_new_of_le hle, AtomInner.inline.injEq] at h
    have hlen : (UInt8.ofNat value.utf8ByteSize).toNat = value.utf8ByteSize :=
      UInt8.toNat_ofNat_of_lt' (lt_of_le_of_lt hle (by decide))
    rw [← h.1, ← h.2, hlen]
    refine ⟨rfl, ?_⟩
    rw [← length_strBytes, List.take_left]

/-- **Atom storage is canonical.** Both constructors build the same atom of a text, which reads back
as that text: inline storage holds its length and its bytes, heap storage the text itself. The
derived `==` and the derived hash input, which read the whole representation, agree with the
equality of texts. -/
theorem storage_canonical (s t : String) :
    fromString s = new s ∧ (new s).asStr = s ∧
      (∀ len buffer, (new s).inner = .inline len buffer →
        len.toNat = s.utf8ByteSize ∧ buffer.take len.toNat = strBytes s ∧
          (buffer.take len.toNat).toByteArray.IsValidUTF8) ∧
      (∀ string, (new s).inner = .owned string → string = s) ∧
      ((new s).eq (new t) = true ↔ s = t) ∧
      ((new s).hashInput = (new t).hashInput ↔ s = t) := by
  refine ⟨fromString_eq s, asStr_new s, fun len buffer h => ?_, fun string h => ?_, ?_, ?_⟩
  · obtain ⟨hlen, htake⟩ := inline_faithful h
    refine ⟨hlen, htake, ?_⟩
    rw [htake, toByteArray_strBytes]
    exact s.isValidUTF8
  · -- heap storage is used above the inline capacity only
    rcases Nat.lt_or_ge inlineCap s.utf8ByteSize with hlt | hle
    · rw [inner_new_of_lt hlt, AtomInner.owned.injEq] at h
      exact h.symm
    · rw [inner_new_of_le hle] at h
      cases h
  · rw [eq_iff, new_inj]
  · rw [hashInput_inj, new_inj]

/-- Embedded zeros are told apart from the padding, at every length up to the boundary. -/
example : (new "a").eq (new "a\x00") = false ∧ (new "").hashInput ≠ (new "\x00").hashInput := by
  decide

end Atom

end Sexp
