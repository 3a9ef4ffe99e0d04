import LogService.Xdr.Client
import LogService.XdrJson.Server

/-!
# What the clients send of what was typed

Both clients look at the line with its newline, and at no error of the reader.
So neither ends at a line `q` that has been entered, or at the end of the input:
only at a last line `q` without a newline.
-/

namespace LogService

open Utf8 (Bytes)
open Client (SendsTyped QuitsAtEnd beforeQuit)

/-- The JSON bytes `w` carry the text: it is what they are parsed to. -/
def XdrJson.CarriesText (text w : Bytes) : Prop :=
  ∃ cs, text = Utf8.encode cs ∧ XdrJson.logOf w = .ok (.str (Python.Str.ofText cs))

/-- A message carries its text if the text is UTF-8. -/
theorem XdrJson.carriesText_message {v : Go.Version} {text : Bytes} :
    XdrJson.CarriesText text (XdrJson.message v text) ↔ Utf8.Valid text := by
  constructor
  · rintro ⟨cs, hcs, -⟩
    exact ⟨cs, hcs⟩
  · rintro ⟨cs, rfl⟩
    have hlog :=
      (XdrJson.saved_message (v := v) ⟨fun _ => true, fun _ => rfl⟩ (Utf8.encode cs)).logOf
    rw [Go.runes_encode] at hlog
    exact ⟨cs, rfl, hlog⟩

/-- Each client ends, and has sent exactly the lines before the first one that
    reads `q`, if and only if this is the last line and has no newline; for the
    texts to be read back from what the JSON client has sent, the lines have to
    be UTF-8, too. -/
theorem clients_sendTyped_iff {ε : Type} (marshal : Bytes → Except ε Bytes) (v : Go.Version)
    (input : Bytes) (hmarshal : ∀ t ∈ [] :: Go.lines input, ∃ w, marshal t = .ok w) :
    (SendsTyped (Xdr.clientBody marshal) (fun t w => marshal t = .ok w) input ↔
      QuitsAtEnd input) ∧
    (SendsTyped (XdrJson.clientBody v) (fun t w => XdrJson.message v t = w) input ↔
      QuitsAtEnd input) ∧
    (SendsTyped (XdrJson.clientBody v) XdrJson.CarriesText input ↔
      QuitsAtEnd input ∧ ∀ t ∈ beforeQuit input, Utf8.Valid t) := by
  refine ⟨?_, ?_, ?_⟩
  · rw [(Xdr.sends_clientBody marshal).sendsTyped_iff hmarshal]
    refine and_iff_left_of_imp fun _ t ht => ?_
    obtain ⟨w, hw⟩ := hmarshal t (List.mem_cons_of_mem _ ((List.takeWhile_prefix _).subset ht))
    rw [Xdr.message, hw]
    rfl
  · rw [(XdrJson.sends_clientBody _).sendsTyped_iff fun t _ => Set.mem_univ t]
    exact and_iff_left_of_imp fun _ t _ => rfl
  · rw [(XdrJson.sends_clientBody _).sendsTyped_iff fun t _ => Set.mem_univ t]
    exact and_congr_right fun _ => forall₂_congr fun t _ => XdrJson.carriesText_message

/-- The line `a`, and then `q`, without a newline. -/
theorem clients_sendTyped_aq :
    SendsTyped (Xdr.clientBody Xdr.marshalText) (fun t w => Xdr.marshalText t = .ok w)
      [0x61, 0x0a, 0x71] ∧
    SendsTyped (XdrJson.clientBody Go.go121) XdrJson.CarriesText [0x61, 0x0a, 0x71] := by
  have hquits : QuitsAtEnd [0x61, 0x0a, 0x71] := ⟨[[0x61, 0x0a]], rfl, by decide⟩
  obtain ⟨hxdr, -, hjson⟩ := clients_sendTyped_iff Xdr.marshalText Go.go121
    [0x61, 0x0a, 0x71] fun t _ => ⟨_, rfl⟩
  exact ⟨hxdr.2 hquits, hjson.2 ⟨hquits, by decide⟩⟩

/-- The line `q`, entered with the return key: no client ends. -/
theorem clients_not_sendTyped_q :
    ¬SendsTyped (Xdr.clientBody Xdr.marshalText) (fun t w => Xdr.marshalText t = .ok w)
      [0x71, 0x0a] ∧
    ¬SendsTyped (XdrJson.clientBody Go.go121) (fun t w => XdrJson.message Go.go121 t = w)
      [0x71, 0x0a] := by
  have hquits : ¬QuitsAtEnd [0x71, 0x0a] := by
    rintro ⟨before, hlines, -⟩
    have hlast := congrArg List.getLast? hlines
    rw [List.getLast?_concat] at hlast
    exact absurd hlast (by decide)
  constructor
  · rw [(Xdr.sends_clientBody Xdr.marshalText).sendsTyped_iff fun t _ => ⟨_, rfl⟩]
    exact fun h => hquits h.1
  · rw [(XdrJson.sends_clientBody _).sendsTyped_iff fun t _ => Set.mem_univ t]
    exact fun h => hquits h.1

end LogService
