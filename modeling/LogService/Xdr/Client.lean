import LogService.Client
import LogService.XdrString

/-!
# The XDR client

`XDR/client.go`: every line that was typed, as `xdr.Marshal` encodes it. This is a
function of a library, and a parameter here.
-/

namespace LogService.Xdr

open Utf8 (Bytes)

/-- What is written for a text: the bytes that `xdr.Marshal` makes of it, or none, if it
    fails. -/
def message {ε : Type} (marshal : Bytes → Except ε Bytes) (text : Bytes) : Bytes :=
  (marshal text).toOption.getD []

/-- The body of the loop of `SocketClient`. If `xdr.Marshal` fails it returns. -/
def clientBody {ε : Type} (marshal : Bytes → Except ε Bytes) (c : Client) : Option Client :=
  if c.textInput = quit then none
  else
    match marshal c.textInput with
    | .error _ => none
    | .ok encodedData => some (c.write encodedData).read

theorem sends_clientBody {ε : Type} (marshal : Bytes → Except ε Bytes) :
    Client.Sends (clientBody marshal) (message marshal) {t | ∃ w, marshal t = .ok w} where
  leave c h := if_pos h
  next c h hmarshal := by
    obtain ⟨w, hw⟩ := hmarshal
    rw [clientBody, if_neg h, message, hw]
    rfl

/-- `xdr.Marshal`, as it is documented, on texts whose length fits a word. -/
def marshalText (t : Bytes) : Except Unit Bytes := .ok (XdrString.encode t)

theorem marshalText_eq (t : Bytes) (_ : t.length < 2 ^ 32) :
    marshalText t = .ok (XdrString.encode t) := rfl

end LogService.Xdr
