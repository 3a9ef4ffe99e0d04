import LogService.Client
import LogService.Go.Json

/-!
# The JSON client

`xdr_json/client.go`: every line that was typed, in a `LogMessage`.
-/

namespace LogService.XdrJson

open Utf8 (Bytes)
open Go (ascii)

/-- `LogMessage`. -/
structure LogMessage where
  log : Bytes

/-- `json.Marshal(aLogMessage)`, with the encoder of the version `v`. -/
def LogMessage.marshal (v : Go.Version) (m : LogMessage) : Bytes :=
  Go.encodeStruct v [(ascii "Log", m.log)]

/-- The message of a text. -/
def message (v : Go.Version) (text : Bytes) : Bytes := LogMessage.marshal v { log := text }

/-- The body of the loop of `SocketClient`. -/
def clientBody (v : Go.Version) (c : Client) : Option Client :=
  if c.textInput ≠ quit then
    let aLogMessage : LogMessage := { log := c.textInput }
    let res := aLogMessage.marshal v
    some (c.write res).read
  else none

theorem sends_clientBody (v : Go.Version) :
    Client.Sends (clientBody v) (message v) Set.univ where
  leave _ h := if_neg (not_not.2 h)
  next _ h _ := if_pos h

end LogService.XdrJson
