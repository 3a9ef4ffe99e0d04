import LogService.Python.Basic
import LogService.XdrString

/-!
# `xdrlib.Unpacker`

An unpacker is a buffer and a position in it. It reads a string at its position
if the buffer is long enough, and raises `EOFError` otherwise. A fresh unpacker
reads the string in front (`unpackString_eq`).
-/

namespace Python

open Utf8 (Bytes)

/-- `xdrlib.Unpacker(buf)`, reading at the position `pos`. -/
structure Unpacker where
  buf : Bytes
  pos : ℕ := 0

namespace Unpacker

/-- A slice of the buffer, `buf[i:j]`. -/
def slice (u : Unpacker) (i j : ℕ) : Bytes := (u.buf.drop i).take (j - i)

/-- `unpack_uint()`. -/
def unpackUint (u : Unpacker) : Except Exception (ℕ × Unpacker) :=
  let i := u.pos
  let j := i + 4
  let data := u.slice i j
  if data.length < 4 then .error .eofError
  else .ok (XdrString.ofWord data, { u with pos := j })

/-- `unpack_fstring(n)`. -/
def unpackFstring (u : Unpacker) (n : ℕ) : Except Exception (Bytes × Unpacker) :=
  let i := u.pos
  let j := i + (n + 3) / 4 * 4
  if j > u.buf.length then .error .eofError
  else .ok (u.slice i (i + n), { u with pos := j })

/-- `unpack_string()`. -/
def unpackString (u : Unpacker) : Except Exception (Bytes × Unpacker) := do
  let (n, u) ← u.unpackUint
  u.unpackFstring n

/-- A fresh unpacker reads the word its buffer starts with. -/
theorem unpackUint_eq (buf : Bytes) :
    unpackUint { buf } =
      if 4 ≤ buf.length then .ok (XdrString.ofWord (buf.take 4), { buf, pos := 4 })
      else .error .eofError := by
  have hlen : (buf.take 4).length < 4 ↔ ¬4 ≤ buf.length := by
    rw [List.length_take]
    omega
  simp only [unpackUint, slice, List.drop_zero, zero_add, Nat.sub_zero, hlen, ite_not]

/-- After the word, it reads as many bytes, if there are enough for the padding. -/
theorem unpackFstring_eq (buf : Bytes) (n : ℕ) :
    unpackFstring { buf, pos := 4 } n =
      if 4 + XdrString.padded n ≤ buf.length then
        .ok ((buf.drop 4).take n, { buf, pos := 4 + XdrString.padded n })
      else .error .eofError := by
  by_cases h : 4 + XdrString.padded n ≤ buf.length
  · rw [if_pos h]
    refine (if_neg (not_lt.2 h)).trans ?_
    rw [slice, Nat.add_sub_cancel_left]
    rfl
  · rw [if_neg h]
    exact if_pos (not_le.1 h)

/-- A fresh unpacker reads the string its buffer starts with, or raises. -/
theorem unpackString_eq (buf : Bytes) :
    (unpackString { buf }).map Prod.fst =
      match XdrString.read? buf with
      | some t => .ok t
      | none => .error .eofError := by
  rw [unpackString, unpackUint_eq, XdrString.read?]
  by_cases h₁ : 4 ≤ buf.length
  · rw [if_pos h₁]
    change (unpackFstring { buf, pos := 4 } _).map Prod.fst = _
    rw [unpackFstring_eq]
    by_cases h₂ : 4 + XdrString.padded (XdrString.ofWord (buf.take 4)) ≤ buf.length
    · rw [if_pos h₂, if_pos ⟨h₁, h₂⟩]
      rfl
    · rw [if_neg h₂, if_neg fun h => h₂ h.2]
      rfl
  · rw [if_neg h₁, if_neg fun h => h₁ h.1]
    rfl

theorem unpackString_of_some {buf t : Bytes} (h : XdrString.read? buf = some t) :
    ∃ u, unpackString { buf } = .ok (t, u) := by
  have heq := unpackString_eq buf
  rw [h, map_eq_ok_iff] at heq
  obtain ⟨⟨_, u⟩, hu, rfl⟩ := heq
  exact ⟨u, hu⟩

theorem unpackString_of_none {buf : Bytes} (h : XdrString.read? buf = none) :
    unpackString { buf } = .error .eofError := by
  have heq := unpackString_eq buf
  rwa [h, map_eq_error_iff] at heq

end Unpacker
end Python
