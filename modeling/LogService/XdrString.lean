import LogService.Utf8

/-!
# XDR strings

The external data representation of a string: its length, as a big-endian word
of four bytes, its bytes, and zeros up to a multiple of four. A buffer that is
long enough for the string its first word announces starts with this string,
whatever the bytes in the place of the padding, and after it (`read?`).

* `read?_encode_append`: the representation of a string is read back;
* `read?_eq_some_iff`: what a string is read from.
-/

namespace XdrString

open Utf8 (Bytes)

/-- A word: four bytes, the most significant first. -/
def word (n : ℕ) : Bytes :=
  [UInt8.ofNat (n / 2 ^ 24), UInt8.ofNat (n / 2 ^ 16), UInt8.ofNat (n / 2 ^ 8), UInt8.ofNat n]

/-- The number big-endian bytes stand for. -/
def ofWord (bs : Bytes) : ℕ := bs.foldl (fun n b => n * 256 + b.toNat) 0

/-- `n` rounded up to a multiple of four. -/
def padded (n : ℕ) : ℕ := (n + 3) / 4 * 4

/-- The representation of the string `t`. -/
def encode (t : Bytes) : Bytes :=
  word t.length ++ t ++ List.replicate (padded t.length - t.length) 0

/-- The string a buffer starts with, if it is long enough for it. -/
def read? (buf : Bytes) : Option Bytes :=
  let n := ofWord (buf.take 4)
  if 4 ≤ buf.length ∧ 4 + padded n ≤ buf.length then some ((buf.drop 4).take n) else none

/-! ## Words -/

@[simp] theorem word_length (n : ℕ) : (word n).length = 4 := rfl

theorem ofWord_word {n : ℕ} (h : n < 2 ^ 32) : ofWord (word n) = n := by
  simp only [word, ofWord, List.foldl_cons, List.foldl_nil, UInt8.toNat_ofNat']
  omega

theorem word_ofWord {bs : Bytes} (h : bs.length = 4) : word (ofWord bs) = bs := by
  obtain ⟨a, b, c, d, rfl⟩ := List.length_eq_four.1 h
  have ha := a.toNat_lt
  have hb := b.toNat_lt
  have hc := c.toNat_lt
  have hd := d.toNat_lt
  simp only [word, ofWord, List.foldl_cons, List.foldl_nil, List.cons.injEq, ← UInt8.toNat_inj,
    UInt8.toNat_ofNat', and_true]
  refine ⟨?_, ?_, ?_, ?_⟩ <;> omega

theorem ofWord_lt {bs : Bytes} (h : bs.length = 4) : ofWord bs < 2 ^ 32 := by
  obtain ⟨a, b, c, d, rfl⟩ := List.length_eq_four.1 h
  have ha := a.toNat_lt
  have hb := b.toNat_lt
  have hc := c.toNat_lt
  have hd := d.toNat_lt
  simp only [ofWord, List.foldl_cons, List.foldl_nil]
  omega

/-! ## Representations -/

theorem le_padded (n : ℕ) : n ≤ padded n := by
  rw [padded]
  omega

/-- The representation takes a word, and the bytes rounded up. -/
theorem encode_length (t : Bytes) : (encode t).length = 4 + padded t.length := by
  have := le_padded t.length
  simp only [encode, List.length_append, word_length, List.length_replicate]
  omega

theorem encode_ne_nil (t : Bytes) : encode t ≠ [] := by
  rw [← List.length_pos_iff, encode_length]
  omega

/-- A string is read from a buffer that starts with its length and its bytes,
    and has room for the padding. -/
theorem read?_eq_some_iff {buf t : Bytes} :
    read? buf = some t ↔
      t.length < 2 ^ 32 ∧ word t.length ++ t <+: buf ∧ 4 + padded t.length ≤ buf.length := by
  rw [read?]
  constructor
  · intro h
    split at h
    · next hlen =>
      cases h
      -- The body read has as many bytes as the word says.
      have hword : (buf.take 4).length = 4 := by rw [List.length_take]; omega
      have hle := le_padded (ofWord (buf.take 4))
      have ht : ((buf.drop 4).take (ofWord (buf.take 4))).length = ofWord (buf.take 4) := by
        rw [List.length_take, List.length_drop]; omega
      rw [ht, word_ofWord hword]
      refine ⟨ofWord_lt hword, ?_, hlen.2⟩
      rw [← List.take_add]
      exact List.take_prefix _ _
    · cases h
  · rintro ⟨ht, ⟨rest, rfl⟩, hlen⟩
    have hword : (word t.length ++ t ++ rest).take 4 = word t.length := by
      rw [List.append_assoc]
      exact List.take_left' (word_length _)
    have hbody : (word t.length ++ t ++ rest).drop 4 = t ++ rest := by
      rw [List.append_assoc]
      exact List.drop_left' (word_length _)
    rw [hword, hbody, ofWord_word ht, if_pos ⟨by omega, hlen⟩, List.take_left]

/-- The representation of a string is read back, whatever follows it. -/
theorem read?_encode_append {t : Bytes} (ht : t.length < 2 ^ 32) (rest : Bytes) :
    read? (encode t ++ rest) = some t := by
  refine read?_eq_some_iff.2 ⟨ht, ⟨List.replicate (padded t.length - t.length) 0 ++ rest, ?_⟩, ?_⟩
  · simp only [encode, List.append_assoc]
  · rw [List.length_append, encode_length]
    omega

/-- Only one string starts a buffer, with its length in front. -/
theorem eq_of_isPrefix {buf t u : Bytes} (ht : t.length < 2 ^ 32) (hu : u.length < 2 ^ 32)
    (hbuf : word t.length ++ t <+: buf) (hbuf' : word u.length ++ u <+: buf) : t = u := by
  -- The first words are the same, so the lengths are, and so the strings.
  have hword : word t.length = word u.length :=
    (List.prefix_of_prefix_length_le ((List.prefix_append _ _).trans hbuf)
      ((List.prefix_append _ _).trans hbuf') le_rfl).eq_of_length rfl
  have hlength : t.length = u.length := by rw [← ofWord_word ht, hword, ofWord_word hu]
  have heq : word t.length ++ t = word u.length ++ u :=
    (List.prefix_of_prefix_length_le hbuf hbuf' (by
      rw [List.length_append, List.length_append, hlength])).eq_of_length (by
      rw [List.length_append, List.length_append, hlength])
  exact (List.append_inj heq rfl).2

/-- What is read from the start of a representation, and what follows it, is the
    string represented. -/
theorem eq_of_read?_of_isPrefix {buf rest t u : Bytes} (ht : t.length < 2 ^ 32)
    (hbuf : buf <+: encode t ++ rest) (h : read? buf = some u) : u = t := by
  obtain ⟨hu, hstart, -⟩ := read?_eq_some_iff.1 h
  refine eq_of_isPrefix hu ht (hstart.trans hbuf) ?_
  rw [encode, List.append_assoc (word t.length ++ t)]
  exact List.prefix_append _ _

/-- What a string is read from is no shorter than its representation. -/
theorem encode_length_le_of_read? {buf t : Bytes} (h : read? buf = some t) :
    (encode t).length ≤ buf.length := by
  rw [encode_length]
  exact (read?_eq_some_iff.1 h).2.2

end XdrString
