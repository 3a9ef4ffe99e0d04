import LogService.Utf8

/-!
# Python programs

What the servers use of Python: exceptions, strings, and programs that perform
actions (printing, inserting a row) until they end or raise. The actions
performed before an exception stay performed.
-/

namespace Python

open Utf8 (Bytes)

/-! ## Exceptions -/

/-- The exceptions met by the servers. -/
inductive Exception
  /-- `bytes.decode` on bytes that are not UTF-8. -/
  | unicodeDecodeError
  /-- Printing a lone surrogate, which UTF-8 has no encoding for. -/
  | unicodeEncodeError
  | jsonDecodeError (msg : String)
  | recursionError
  | keyError
  | typeError
  | eofError
  /-- An error of the database connector. -/
  | databaseError
  deriving DecidableEq, Repr

section

variable {α β : Type} {x : Except Exception α}

theorem bind_eq_ok_iff {f : α → Except Exception β} {b : β} :
    (x >>= f) = .ok b ↔ ∃ a, x = .ok a ∧ f a = .ok b := by
  cases x <;> simp [bind, Except.bind]

theorem bind_eq_error_iff {f : α → Except Exception β} {e : Exception} :
    (x >>= f) = .error e ↔ x = .error e ∨ ∃ a, x = .ok a ∧ f a = .error e := by
  cases x <;> simp [bind, Except.bind]

theorem map_eq_ok_iff {f : α → β} {b : β} : x.map f = .ok b ↔ ∃ a, x = .ok a ∧ f a = b := by
  cases x <;> simp [Except.map]

theorem map_eq_error_iff {f : α → β} {e : Exception} : x.map f = .error e ↔ x = .error e := by
  cases x <;> simp [Except.map]

end

/-- A program performing actions of `ω`: its state is the list of the actions
    performed so far. -/
abbrev Py (ω : Type) := EStateM Exception (List ω)

/-- Performing one action. -/
def perform {ω : Type} (a : ω) : Py ω Unit := modify (· ++ [a])

@[simp] theorem run_perform {ω : Type} (a : ω) (done : List ω) :
    (perform a).run done = .ok () (done ++ [a]) := rfl

@[simp] theorem run_ofExcept_ok {ω α : Type} (a : α) (done : List ω) :
    (MonadExcept.ofExcept (.ok a : Except Exception α) : Py ω α).run done = .ok a done := rfl

@[simp] theorem run_ofExcept_error {ω α : Type} (e : Exception) (done : List ω) :
    (MonadExcept.ofExcept (.error e : Except Exception α) : Py ω α).run done = .error e done := rfl

/-! ## Strings -/

/-- The code points of a string. Unlike a `Char`, it may be a surrogate. -/
abbrev CodePoint := Fin 0x110000

/-- The strings. -/
abbrev Str := List CodePoint

/-- The code point `n` (at most `U+10FFFF`). -/
def chr (n : ℕ) : CodePoint := Fin.ofNat _ n

/-- The string of a text. -/
def Str.ofText (cs : List Char) : Str := cs.map fun c => chr c.toNat

/-- The surrogates, `U+D800` to `U+DFFF`. -/
def CodePoint.isSurrogate (c : CodePoint) : Bool := 0xd800 ≤ c.val && c.val ≤ 0xdfff

/-- Whether a string has an encoding in UTF-8, e.g., to be printed. -/
def Str.isEncodable (s : Str) : Bool := s.all fun c => !c.isSurrogate

theorem toNat_lt (c : Char) : c.toNat < 0x110000 := by
  have h := c.valid
  simp only [UInt32.isValidChar, Nat.isValidChar, Char.toNat] at h ⊢
  omega

@[simp] theorem chr_toNat_val (c : Char) : (chr c.toNat).val = c.toNat :=
  Nat.mod_eq_of_lt (toNat_lt c)

/-- A character is not a surrogate. -/
theorem not_surrogate (c : Char) : ¬(0xd800 ≤ c.toNat ∧ c.toNat ≤ 0xdfff) := by
  have h := c.valid
  simp only [UInt32.isValidChar, Nat.isValidChar, Char.toNat] at h ⊢
  omega

@[simp] theorem isEncodable_ofText (cs : List Char) : (Str.ofText cs).isEncodable = true := by
  simp only [Str.isEncodable, Str.ofText, List.all_map, List.all_eq_true, Function.comp_apply,
    CodePoint.isSurrogate, chr_toNat_val, Bool.not_eq_true', Bool.and_eq_false_iff,
    decide_eq_false_iff_not]
  intro c _
  have := not_surrogate c
  omega

theorem ofText_injective : Function.Injective Str.ofText :=
  List.map_injective_iff.2 fun c d h => Char.toNat_inj.1 (by
    have := congrArg Fin.val h
    rwa [chr_toNat_val, chr_toNat_val] at this)

/-! ## Bytes -/

/-- `data.decode('utf-8')`. -/
def decode (data : Bytes) : Except Exception (List Char) :=
  match Utf8.decode? data with
  | some cs => .ok cs
  | none => .error .unicodeDecodeError

theorem decode_eq_ok_iff {data : Bytes} {cs : List Char} :
    decode data = .ok cs ↔ data = Utf8.encode cs := by
  rw [← Utf8.decode?_eq_some_iff, decode]
  cases Utf8.decode? data <;> simp

@[simp] theorem decode_encode (cs : List Char) : decode (Utf8.encode cs) = .ok cs :=
  decode_eq_ok_iff.2 rfl

end Python
