import Mathlib

/-!
# UTF-8 on lists of bytes

Texts are lists of characters, and byte strings lists of bytes; the encoding and
the decoders are those of Lean's own strings, which accept exactly the
well-formed sequences of the Unicode standard (no surrogates, no overlong
forms, nothing above `U+10FFFF`).

* `decode?_eq_some_iff`: decoding is the partial inverse of encoding;
* `encode_eq_append`: characters are self-delimiting. An encoded text at the
  front of another one is cut off between two characters.
-/

namespace Utf8

/-- Byte strings. -/
abbrev Bytes := List UInt8

/-- The UTF-8 encoding of a text. -/
def encode (cs : List Char) : Bytes := cs.flatMap String.utf8EncodeChar

/-- The character whose encoding starts `bs`, if there is one. -/
def decodeChar? (bs : Bytes) : Option Char := bs.toByteArray.utf8DecodeChar? 0

/-- The text `bs` is the encoding of, if there is one. -/
def decode? (bs : Bytes) : Option (List Char) :=
  bs.toByteArray.utf8Decode?.map Array.toList

@[simp] theorem encode_nil : encode [] = [] := rfl

@[simp] theorem encode_cons (c : Char) (cs : List Char) :
    encode (c :: cs) = String.utf8EncodeChar c ++ encode cs := by simp [encode]

@[simp] theorem encode_append (cs ds : List Char) :
    encode (cs ++ ds) = encode cs ++ encode ds := by simp [encode]

/-- A character below `U+0080` is its own byte. -/
theorem encodeChar_of_ascii {c : Char} (h : c.val ≤ 127) :
    String.utf8EncodeChar c = [c.val.toUInt8] := by
  rw [String.utf8EncodeChar_eq_utf8EncodeCharFast, String.utf8EncodeCharFast]
  exact if_pos h

@[simp] theorem encode_eq_nil {cs : List Char} : encode cs = [] ↔ cs = [] := by
  cases cs with
  | nil => simp
  | cons c cs => simp

/-! ## Decoding -/

/-- Decoding a character reads back the one in front. -/
@[simp] theorem decodeChar?_append (c : Char) (bs : Bytes) :
    decodeChar? (String.utf8EncodeChar c ++ bs) = some c := by
  rw [decodeChar?, List.toByteArray_append, ByteArray.utf8DecodeChar?_utf8EncodeChar_append]

/-- What a character is decoded from starts with its encoding. -/
theorem eq_append_of_decodeChar? {bs : Bytes} {c : Char} (h : decodeChar? bs = some c) :
    bs = String.utf8EncodeChar c ++ bs.drop c.utf8Size := by
  obtain ⟨l, hl⟩ := ByteArray.exists_of_utf8DecodeChar?_eq_some h
  obtain ⟨l, rfl⟩ : ∃ m : Bytes, m.toByteArray = l :=
    ⟨l.data.toList, ByteArray.ext (by simp)⟩
  rw [← List.toByteArray_append, List.toByteArray_inj] at hl
  rw [hl, ← String.length_utf8EncodeChar c, List.drop_left]

/-- Decoding is the partial inverse of encoding. -/
theorem decode?_eq_some_iff {bs : Bytes} {cs : List Char} :
    decode? bs = some cs ↔ bs = encode cs := by
  constructor
  · intro h
    obtain ⟨a, ha, rfl⟩ := Option.map_eq_some_iff.1 h
    have hsome : bs.toByteArray.utf8Decode?.isSome := by rw [ha]; rfl
    have hget := ByteArray.utf8Encode_get_utf8Decode? (h := hsome)
    simp only [ha, Option.get_some] at hget
    exact (List.toByteArray_inj.1 hget).symm
  · rintro rfl
    change cs.utf8Encode.utf8Decode?.map Array.toList = some cs
    rw [List.utf8Decode?_utf8Encode]
    rfl

/-- The bytes that are UTF-8. -/
def Valid (bs : Bytes) : Prop := ∃ cs, bs = encode cs

theorem valid_iff {bs : Bytes} : Valid bs ↔ (decode? bs).isSome := by
  simp only [Valid, Option.isSome_iff_exists, decode?_eq_some_iff]

instance (bs : Bytes) : Decidable (Valid bs) := decidable_of_iff _ valid_iff.symm

@[simp] theorem decode?_encode (cs : List Char) : decode? (encode cs) = some cs :=
  decode?_eq_some_iff.2 rfl

/-- An encoded text in front of another one is cut off between two characters. -/
theorem encode_eq_append {cs ds : List Char} {bs : Bytes}
    (h : encode cs ++ bs = encode ds) : ∃ es, ds = cs ++ es ∧ bs = encode es := by
  induction cs generalizing ds with
  | nil => exact ⟨ds, rfl, h⟩
  | cons c cs ih =>
    cases ds with
    | nil =>
      have : encode (c :: cs) = [] := (List.append_eq_nil_iff.1 h).1
      simp at this
    | cons d ds =>
      rw [encode_cons, encode_cons, List.append_assoc] at h
      have hc := decodeChar?_append c (encode cs ++ bs)
      rw [h, decodeChar?_append] at hc
      obtain rfl : d = c := Option.some.inj hc
      obtain ⟨es, rfl, hes⟩ := ih (List.append_cancel_left h)
      exact ⟨es, rfl, hes⟩

end Utf8
