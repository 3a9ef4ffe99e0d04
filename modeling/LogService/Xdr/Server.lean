import LogService.Python.Xdrlib
import LogService.Server.Runs

/-!
# The XDR server

`XDR/server.py`: the receive loop makes an `Unpacker` of what `recv` returned,
takes one string from it, and prints it.

* `unpackable_iff`: the bytes the loop gets through, and the text they start with;
* `turn_of_unpackable`, `turn_of_not_unpackable`: what it does with these and with
  other bytes;
* `printed_flatMap`: what it prints of chunks it gets through.
-/

namespace LogService.Xdr

open Utf8 (Bytes)
open Python

/-- What the server prints. -/
inductive Output
  /-- `Connected by`, and the peer's address. -/
  | connectedBy (addr : Address)
  /-- `Recived data: `. -/
  | recivedData
  /-- The bytes received, as Python writes them. -/
  | data (bs : Bytes)
  /-- `Unpacked data: `, the text, a newline, and ` a`. -/
  | unpackedData (text : List Char)
  deriving DecidableEq, Repr

/-- The body of the receive loop, on what `recv` returned. The encoding of the standard
    output is taken to be UTF-8, so that every text can be printed. -/
def body (data : Bytes) : Py Output Control := do
  let unpacker : Unpacker := { buf := data }
  if data = [] then
    return .leave
  perform .recivedData
  perform (.data data)
  let (string, _) ← MonadExcept.ofExcept unpacker.unpackString
  let text ← MonadExcept.ofExcept (decode string)
  perform (.unpackedData text)
  return .next

/-- The server. -/
def server : Server Output where
  accepted := .connectedBy
  body _ data := body data

/-- The texts printed. -/
def printed (actions : List Output) : List (List Char) :=
  actions.filterMap fun
    | .unpackedData text => some text
    | _ => none

@[simp] theorem printed_append (as bs : List Output) :
    printed (as ++ bs) = printed as ++ printed bs :=
  List.filterMap_append

/-! ## The bytes the loop gets through -/

/-- The bytes the loop gets through: the word they start with, as many bytes
    after it, with their padding, and the bytes are UTF-8. -/
structure Unpackable (data : Bytes) : Prop where
  word : 4 ≤ data.length
  body : 4 + XdrString.padded (XdrString.ofWord (data.take 4)) ≤ data.length
  utf8 : Utf8.Valid ((data.drop 4).take (XdrString.ofWord (data.take 4)))

/-- They are those a text is read from. -/
theorem unpackable_iff {data : Bytes} :
    Unpackable data ↔ ∃ text, XdrString.read? data = some (Utf8.encode text) := by
  constructor
  · rintro ⟨hword, hbody, text, htext⟩
    exact ⟨text, by rw [XdrString.read?, if_pos ⟨hword, hbody⟩, htext]⟩
  · rintro ⟨text, hread⟩
    rw [XdrString.read?] at hread
    split at hread
    · next h => exact ⟨h.1, h.2, text, Option.some.inj hread⟩
    · cases hread

theorem Unpackable.ne_nil {data : Bytes} (h : Unpackable data) : data ≠ [] := by
  rintro rfl
  exact absurd h.word (by decide)

/-- The text these bytes start with. -/
def text (data : Bytes) : List Char :=
  ((XdrString.read? data).bind Utf8.decode?).getD []

theorem text_eq {data : Bytes} {cs : List Char}
    (h : XdrString.read? data = some (Utf8.encode cs)) : text data = cs := by
  rw [text, h, Option.bind_some, Utf8.decode?_encode, Option.getD_some]

theorem Unpackable.read?_eq {data : Bytes} (h : Unpackable data) :
    XdrString.read? data = some (Utf8.encode (text data)) := by
  obtain ⟨cs, hread⟩ := unpackable_iff.1 h
  rw [text_eq hread, hread]

/-- The representation of a text is read back. -/
theorem read?_encode {t : Bytes} (h : t.length < 2 ^ 32) :
    XdrString.read? (XdrString.encode t) = some t := by
  rw [← List.append_nil (XdrString.encode t), XdrString.read?_encode_append h]

/-! ## An iteration -/

/-- No bytes: the loop is left, and nothing is printed. -/
@[simp] theorem turn_nil (addr : Address) : server.turn addr [] = ⟨[], [], .ok .leave⟩ :=
  rfl

theorem turn_nil_ne_next (addr : Address) : (server.turn addr []).outcome ≠ .ok .next := by
  rw [turn_nil]
  rintro ⟨⟩

/-- Bytes the loop gets through: they are printed, and the text they start with. -/
theorem turn_of_unpackable (addr : Address) {data : Bytes} (h : Unpackable data) :
    server.turn addr data =
      ⟨data, [.recivedData, .data data, .unpackedData (text data)], .ok .next⟩ := by
  obtain ⟨u, hu⟩ := Unpacker.unpackString_of_some h.read?_eq
  exact Server.turn_of_ok (by simp [server, body, h.ne_nil, hu])

/-- Other bytes: they are printed, and the loop raises. -/
theorem turn_of_not_unpackable (addr : Address) {data : Bytes} (hne : data ≠ [])
    (h : ¬Unpackable data) :
    ∃ e, server.turn addr data = ⟨data, [.recivedData, .data data], .error e⟩ := by
  cases hread : XdrString.read? data with
  | none =>
    have hu := Unpacker.unpackString_of_none hread
    exact ⟨.eofError, Server.turn_of_error (by simp [server, body, hne, hu])⟩
  | some t =>
    obtain ⟨u, hu⟩ := Unpacker.unpackString_of_some hread
    have hdecode : decode t = .error .unicodeDecodeError := by
      rw [decode]
      cases htext : Utf8.decode? t with
      | none => rfl
      | some cs =>
        rw [Utf8.decode?_eq_some_iff] at htext
        exact absurd (unpackable_iff.2 ⟨cs, htext ▸ hread⟩) h
    exact ⟨.unicodeDecodeError, Server.turn_of_error (by simp [server, body, hne, hu, hdecode])⟩

/-- The loop goes on after the bytes it gets through, and only these. -/
theorem turn_outcome_eq_next_iff {addr : Address} {data : Bytes} :
    (server.turn addr data).outcome = .ok .next ↔ Unpackable data := by
  constructor
  · intro hnext
    by_contra h
    by_cases hne : data = []
    · rw [hne, turn_nil] at hnext
      cases hnext
    · obtain ⟨e, he⟩ := turn_of_not_unpackable addr hne h
      rw [he] at hnext
      cases hnext
  · intro h
    rw [turn_of_unpackable addr h]

/-- It is never left while there are data. -/
theorem turn_outcome_ne_leave (addr : Address) (data : Bytes) (hne : data ≠ []) :
    (server.turn addr data).outcome ≠ .ok .leave := by
  intro hleave
  by_cases h : Unpackable data
  · rw [turn_of_unpackable addr h] at hleave
    cases hleave
  · obtain ⟨e, he⟩ := turn_of_not_unpackable addr hne h
    rw [he] at hleave
    cases hleave

/-- The sessions in which the loop goes on. -/
theorem goesOn_iff {s : Session} :
    server.GoesOn s ↔ ∀ chunk ∈ s.chunks, Unpackable chunk.data :=
  forall₂_congr fun _ _ => turn_outcome_eq_next_iff

/-- What is printed of chunks the loop gets through: the text of each. -/
theorem printed_flatMap (addr : Address) {l : List Chunk}
    (hl : ∀ chunk ∈ l, Unpackable chunk.data) :
    printed (l.flatMap fun chunk => (server.turn addr chunk.data).actions) =
      l.map fun chunk => text chunk.data := by
  induction l with
  | nil => rfl
  | cons chunk l ih =>
    rw [List.forall_mem_cons] at hl
    rw [List.flatMap_cons, printed_append, ih hl.2, turn_of_unpackable addr hl.1, List.map_cons]
    rfl

end LogService.Xdr
