import LogService.Utf8

/-!
# `json.Marshal`

Go's strings are byte strings, meant as UTF-8 but not checked to be. This is
what `json.Marshal` writes for a struct of strings, as the encoder of
`encoding/json` does it (with HTML characters escaped): text is copied, and what
cannot stand in a JSON string is escaped. A byte that is no part of an encoded
character is replaced by `U+FFFD`. Not all versions of the package write this
character, and two of the control characters, in the same way (`Version`).
-/

namespace Go

open Utf8 (Bytes)

/-! ## Runes -/

/-- `utf8.RuneError`. -/
def runeError : Char := '\ufffd'

/-- `utf8.DecodeRuneInString`: the first character and its size, or
    `utf8.RuneError` of size `1` for a byte that does not start one. -/
def decodeRuneInString (s : Bytes) : Char × ℕ :=
  if s = [] then (runeError, 0)
  else match Utf8.decodeChar? s with
    | some c => (c, c.utf8Size)
    | none => (runeError, 1)

theorem decodeRuneInString_pos {s : Bytes} (hs : s ≠ []) : 0 < (decodeRuneInString s).2 := by
  rw [decodeRuneInString, if_neg hs]
  split
  · exact Char.utf8Size_pos _
  · exact Nat.one_pos

/-- What follows the first rune is shorter. -/
theorem drop_length_lt (b : UInt8) (s : Bytes) :
    ((b :: s).drop (decodeRuneInString (b :: s)).2).length < (b :: s).length := by
  have := decodeRuneInString_pos (List.cons_ne_nil b s)
  rw [List.length_drop, List.length_cons]
  omega

/-- The text of a string: its runes, `[]rune(s)`. -/
def runes : Bytes → List Char
  | [] => []
  | b :: s =>
    (decodeRuneInString (b :: s)).1 :: runes ((b :: s).drop (decodeRuneInString (b :: s)).2)
termination_by s => s.length
decreasing_by exact drop_length_lt b s

/-- The runes of a string that is UTF-8 are its characters. -/
theorem runes_encode (cs : List Char) : runes (Utf8.encode cs) = cs := by
  induction cs with
  | nil => rw [Utf8.encode_nil, runes]
  | cons c cs ih =>
    obtain ⟨b, s, hbs⟩ := List.exists_cons_of_ne_nil
      (show Utf8.encode (c :: cs) ≠ [] by simp)
    have hdec : decodeRuneInString (b :: s) = (c, c.utf8Size) := by
      rw [decodeRuneInString, if_neg (List.cons_ne_nil b s), ← hbs, Utf8.encode_cons,
        Utf8.decodeChar?_append]
    rw [hbs, runes, hdec, ← hbs, Utf8.encode_cons, ← String.length_utf8EncodeChar c,
      List.drop_left, ih]

/-! ## Strings -/

/-- The bytes of an ASCII literal. -/
def ascii (s : String) : Bytes := Utf8.encode s.toList

/-- `hex[n]`: a hexadecimal digit. -/
def hex (n : UInt8) : UInt8 := if n < 10 then 0x30 + n else 0x57 + n

/-- What the versions of `encoding/json` differ in. The services do not say which one
    they are built with. -/
structure Version where
  /-- A backspace and a form feed are written as `\b` and `\f`, as since Go 1.22. -/
  shortEscapes : Bool
  /-- `U+FFFD` is written as the character, and not as `\ufffd`, for a byte that is no
      part of a character. -/
  rawRuneError : Bool

/-- Go 1.21, and those before. -/
def go121 : Version := ⟨false, false⟩

/-- `htmlSafeSet`: the ASCII characters that are copied. -/
def htmlSafeSet (b : UInt8) : Bool :=
  0x20 ≤ b && b < 0x80 && b ≠ 0x22 && b ≠ 0x26 && b ≠ 0x3c && b ≠ 0x3e && b ≠ 0x5c

/-- The escape of an ASCII character that is not copied. -/
def escapeASCII (v : Version) (b : UInt8) : Bytes :=
  if b = 0x5c ∨ b = 0x22 then [0x5c, b]
  else if v.shortEscapes ∧ b = 0x08 then ascii "\\b"
  else if v.shortEscapes ∧ b = 0x0c then ascii "\\f"
  else if b = 0x0a then ascii "\\n"
  else if b = 0x0d then ascii "\\r"
  else if b = 0x09 then ascii "\\t"
  else ascii "\\u00" ++ [hex (b >>> 4), hex (b &&& 0xf)]

/-- What is written between the quotes of a string. -/
def escape (v : Version) : Bytes → Bytes
  | [] => []
  | b :: s =>
    if b < 0x80 then
      (if htmlSafeSet b then [b] else escapeASCII v b) ++ escape v s
    else
      let c := (decodeRuneInString (b :: s)).1
      let size := (decodeRuneInString (b :: s)).2
      (if c = runeError ∧ size = 1 then
          if v.rawRuneError then String.utf8EncodeChar runeError else ascii "\\ufffd"
        else if c = '\u2028' ∨ c = '\u2029' then ascii "\\u202" ++ [hex (c.toNat.toUInt8 &&& 0xf)]
        else (b :: s).take size) ++ escape v ((b :: s).drop size)
termination_by s => s.length
decreasing_by
  · exact Nat.lt_succ_self _
  · exact drop_length_lt b s

/-- The escape of an ASCII character is at most six bytes. -/
theorem length_escapeASCII_le (v : Version) (b : UInt8) : (escapeASCII v b).length ≤ 6 := by
  rw [escapeASCII]
  split_ifs <;> simp [ascii, Utf8.encode, String.utf8EncodeChar]

/-- A string is escaped to at most six bytes for each of its own. -/
theorem length_escape_le (v : Version) (s : Bytes) : (escape v s).length ≤ 6 * s.length := by
  fun_induction escape v s with
  | case1 => exact Nat.zero_le _
  | case2 b s hb ih =>
    have hone : (if htmlSafeSet b then [b] else escapeASCII v b).length ≤ 6 := by
      split
      · exact Nat.le_of_ble_eq_true rfl
      · exact length_escapeASCII_le v b
    rw [List.length_append, List.length_cons]
    omega
  | case3 b s hb c size ih =>
    have hsize : 0 < size := decodeRuneInString_pos (List.cons_ne_nil b s)
    have hpos : 0 < (b :: s).length := Nat.succ_pos _
    have htake : ((b :: s).take size).length = min size (b :: s).length := List.length_take
    have hdrop : ((b :: s).drop size).length = (b :: s).length - size := List.length_drop
    rw [List.length_append]
    split_ifs
    · have h3 : (String.utf8EncodeChar runeError).length = 3 := by decide
      omega
    · have h6 : (ascii "\\ufffd").length = 6 := by decide
      omega
    · have h6 : (ascii "\\u202" ++ [hex (c.toNat.toUInt8 &&& 0xf)]).length = 6 := by
        simp [ascii, Utf8.encode, String.utf8EncodeChar]
      omega
    · omega

/-- A string, in quotes. -/
def encodeString (v : Version) (s : Bytes) : Bytes := ascii "\"" ++ escape v s ++ ascii "\""

/-- A struct of strings: its fields, with their names, in order. -/
def encodeStruct (v : Version) (fields : List (Bytes × Bytes)) : Bytes :=
  ascii "\x7b" ++
    List.intercalate (ascii ",")
      (fields.map fun f => encodeString v f.1 ++ ascii ":" ++ encodeString v f.2) ++
    ascii "\x7d"

end Go
