import LogService.Server.Runs
import LogService.XdrJson.Message

/-!
# The JSON server

`xdr_json/server.py`: the receive loop parses what `recv` returned, prints its
member `Log`, and inserts a row with it. It parses before it looks whether there
are any data, and no bytes are no JSON: at the close of the peer it raises.

* `turn_of_saved`, `turn_of_not_saved`: what the loop does with bytes;
* `turn_nil`: and at the close of the peer.
-/

namespace LogService.XdrJson

open Utf8 (Bytes)
open Go (runes)
open Python

/-! ## What the server does -/

/-- A row of the table `log`. -/
structure Row where
  ipAddress : String
  logMessage : Json

/-- What the server does, in order. -/
inductive Action
  /-- It prints `Conected by`, and the peer's address. -/
  | connectedBy (addr : Address)
  /-- It prints `Saved data: `. -/
  | savedData
  /-- It prints `Log: `, the member, a newline, `Addr: `, and the peer's address. -/
  | log (log : Json) (address : String)
  /-- It inserts a row. -/
  | execute (row : Row)
  | commit

/-- The database: the values it takes for `log_message`. It is assumed to take every
    string, however long, and never to fail otherwise. Of other values, it may take
    some. -/
structure MySql where
  accepts : Json → Bool
  accepts_str : ∀ s, accepts (.str s) = true

/-- A database that takes nothing else. -/
def MySql.strings : MySql where
  accepts
    | .str _ => true
    | _ => false
  accepts_str _ := rfl

/-- Whether `"{}".format(value)` can be printed. A string is printed as it is;
    inside of other values, Python escapes what it cannot print. -/
def isPrintable : Json → Bool
  | .str s => s.isEncodable
  | _ => true

/-- `print("Log: {}\nAddr: {}".format(log, address))`. -/
def printLog (log : Json) (address : String) : Py Action Unit :=
  if isPrintable log then perform (.log log address) else throw .unicodeEncodeError

/-- `saveLogToDatabase(address, log)`. -/
def saveLogToDatabase (mydb : MySql) (address : String) (log : Json) : Py Action Unit := do
  if mydb.accepts log then
    perform (.execute ⟨address, log⟩)
  else
    throw .databaseError
  perform .commit

/-- The body of the receive loop, on what `recv` returned. -/
def body (mydb : MySql) (addr : Address) (data : Bytes) : Py Action Control := do
  let text ← MonadExcept.ofExcept (decode data)
  let parsedData ← MonadExcept.ofExcept (loads text)
  if data = [] then
    return .leave
  perform .savedData
  printLog (← MonadExcept.ofExcept (parsedData.getItem key)) addr.ip
  saveLogToDatabase mydb addr.ip (← MonadExcept.ofExcept (parsedData.getItem key))
  return .next

/-- The server. -/
def server (mydb : MySql) : Server Action where
  accepted := .connectedBy
  body := body mydb

/-- The rows inserted. -/
def rows (actions : List Action) : List Row :=
  actions.filterMap fun
    | .execute row => some row
    | _ => none

@[simp] theorem rows_append (as bs : List Action) : rows (as ++ bs) = rows as ++ rows bs :=
  List.filterMap_append

/-! ## An iteration -/

variable {mydb : MySql} {addr : Address} {data : Bytes} {v : Go.Version}

/-- The member `Log` of the object that the bytes are. -/
def logOf (data : Bytes) : Except Exception Json := do
  let text ← decode data
  let parsedData ← loads text
  parsedData.getItem key

/-- The bytes are an object whose member `Log` is printed and inserted. -/
structure Saved (mydb : MySql) (data : Bytes) (log : Json) : Prop where
  logOf : logOf data = .ok log
  isPrintable : isPrintable log = true
  accepts : mydb.accepts log = true

/-- No bytes: they are no JSON, and the loop raises. -/
theorem turn_nil : (server mydb).turn addr [] =
    ⟨[], [], .error (.jsonDecodeError "Expecting value")⟩ := by
  rfl

theorem logOf_nil : logOf [] = .error (.jsonDecodeError "Expecting value") := by
  rfl

/-- What the bytes are, if they have a member `Log`. -/
theorem exists_of_logOf {log : Json} (h : logOf data = .ok log) :
    ∃ text obj, decode data = .ok text ∧ loads text = .ok obj ∧ obj.getItem key = .ok log := by
  obtain ⟨text, htext, h⟩ := bind_eq_ok_iff.1 h
  obtain ⟨obj, hobj, hlog⟩ := bind_eq_ok_iff.1 h
  exact ⟨text, obj, htext, hobj, hlog⟩

theorem Saved.ne_nil {log : Json} (h : Saved mydb data log) : data ≠ [] := by
  rintro rfl
  cases logOf_nil.symm.trans h.logOf

/-- A row is inserted, with the member and the peer's address. -/
theorem turn_of_saved (addr : Address) {log : Json} (h : Saved mydb data log) :
    (server mydb).turn addr data =
      ⟨data, [.savedData, .log log addr.ip, .execute ⟨addr.ip, log⟩, .commit], .ok .next⟩ := by
  obtain ⟨text, obj, htext, hobj, hlog⟩ := exists_of_logOf h.logOf
  exact Server.turn_of_ok (by
    simp [server, body, htext, hobj, hlog, h.ne_nil, printLog, h.isPrintable, saveLogToDatabase,
      h.accepts])

/-- Otherwise the loop raises, before it inserts a row. -/
theorem turn_isPrefix_of_not_saved (addr : Address) (h : ∀ log, ¬Saved mydb data log) :
    ∃ actions e, (server mydb).turn addr data = ⟨data, actions, .error e⟩ ∧
      ∃ log, actions <+: [.savedData, .log log addr.ip] := by
  -- The statements of the loop, in order: each of them may be the one that raises.
  by_cases hne : data = []
  · exact ⟨_, _, hne ▸ turn_nil, .none, List.nil_prefix⟩
  cases htext : decode data with
  | error e =>
    exact ⟨[], e, Server.turn_of_error (by simp [server, body, htext]), .none, List.nil_prefix⟩
  | ok text =>
    cases hobj : loads text with
    | error e =>
      exact ⟨[], e, Server.turn_of_error (by simp [server, body, htext, hobj]), .none,
        List.nil_prefix⟩
    | ok obj =>
      cases hlog : obj.getItem key with
      | error e =>
        exact ⟨[.savedData], e,
          Server.turn_of_error (by simp [server, body, htext, hobj, hne, hlog]), .none,
          List.prefix_append _ _⟩
      | ok log =>
        have hlogOf : logOf data = .ok log :=
          bind_eq_ok_iff.2 ⟨text, htext, bind_eq_ok_iff.2 ⟨obj, hobj, hlog⟩⟩
        by_cases hprint : isPrintable log
        · have haccepts : mydb.accepts log = false := by
            by_contra haccepts
            exact h log ⟨hlogOf, hprint, by simpa using haccepts⟩
          exact ⟨[.savedData, .log log addr.ip], .databaseError, Server.turn_of_error (by
            simp [server, body, htext, hobj, hne, hlog, printLog, hprint, saveLogToDatabase,
              haccepts]), log, List.prefix_rfl⟩
        · exact ⟨[.savedData], .unicodeEncodeError, Server.turn_of_error (by
            simp [server, body, htext, hobj, hne, hlog, printLog, hprint]), .none,
            List.prefix_append _ _⟩

/-- So no row is inserted. -/
theorem turn_of_not_saved (addr : Address) (h : ∀ log, ¬Saved mydb data log) :
    ∃ actions e, (server mydb).turn addr data = ⟨data, actions, .error e⟩ ∧ rows actions = [] := by
  obtain ⟨actions, e, hturn, log, hactions⟩ := turn_isPrefix_of_not_saved addr h
  exact ⟨actions, e, hturn, List.prefix_nil.1 (hactions.filterMap _)⟩

/-- The loop goes on after the bytes of which it inserts a row, and only these. -/
theorem turn_outcome_eq_next_iff :
    ((server mydb).turn addr data).outcome = .ok .next ↔ ∃ log, Saved mydb data log := by
  constructor
  · intro hnext
    by_contra h
    obtain ⟨_, e, he, -⟩ := turn_of_not_saved addr (not_exists.1 h)
    rw [he] at hnext
    cases hnext
  · rintro ⟨log, h⟩
    rw [turn_of_saved addr h]

/-- It does not raise on these, and only on these. -/
theorem turn_outcome_isOk_iff :
    ((server mydb).turn addr data).outcome.isOk ↔ ∃ log, Saved mydb data log := by
  constructor
  · intro hok
    by_contra h
    obtain ⟨_, e, he, -⟩ := turn_of_not_saved addr (not_exists.1 h)
    rw [he] at hok
    cases hok
  · rintro ⟨log, h⟩
    rw [turn_of_saved addr h]
    rfl

/-- It is never left. -/
theorem turn_outcome_ne_leave (addr : Address) (data : Bytes) :
    ((server mydb).turn addr data).outcome ≠ .ok .leave := by
  intro hleave
  by_cases h : ∃ log, Saved mydb data log
  · rw [turn_outcome_eq_next_iff.2 h] at hleave
    cases hleave
  · obtain ⟨_, e, he, -⟩ := turn_of_not_saved addr (not_exists.1 h)
    rw [he] at hleave
    cases hleave

/-! ## Messages -/

/-- The row of a text: its runes, with the peer's address. -/
def row (addr : Address) (t : Bytes) : Row := ⟨addr.ip, .str (Str.ofText (runes t))⟩

/-- Of a text that is UTF-8, it holds the text itself. -/
theorem row_encode (addr : Address) (text : List Char) :
    row addr (Utf8.encode text) = ⟨addr.ip, .str (Str.ofText text)⟩ := by
  rw [row, Go.runes_encode]

/-- The text of a message is saved. -/
theorem saved_message (mydb : MySql) (t : Bytes) :
    Saved mydb (message v t) (.str (Str.ofText (runes t))) where
  logOf := by
    obtain ⟨e, he, hread⟩ := exists_message v t
    rw [logOf, he, decode_encode]
    change (loads (header ++ (e ++ closing)) >>= fun obj => obj.getItem key) = _
    rw [loads_message hread]
    rfl
  isPrintable := isEncodable_ofText (runes t)
  accepts := mydb.accepts_str _

/-- Of the starts of a stream of messages, only the first message is saved. -/
theorem eq_message_of_saved {bs : Bytes} {ts : List Bytes} {log : Json}
    (h : Saved mydb data log) (hstream : data ++ bs = Framing.stream (message v) ts) :
    ∃ t rest, ts = t :: rest ∧ data = message v t := by
  obtain ⟨text, obj, htext, hobj, -⟩ := exists_of_logOf h.logOf
  rw [decode_eq_ok_iff] at htext
  have hne : text ≠ [] := by
    rintro rfl
    exact h.ne_nil htext
  rw [htext] at hstream ⊢
  exact eq_message_of_loads hne hstream hobj

/-- No message goes on in another one. -/
theorem message_prefixFree : Framing.PrefixFree (message v) := by
  rintro t u ⟨more, hmore⟩
  have hstream : message v t ++ more = Framing.stream (message v) [u] := by
    rw [hmore, Framing.stream_cons, Framing.stream_nil, List.append_nil]
  obtain ⟨u', rest, hu, heq⟩ := eq_message_of_saved (saved_message .strings t) hstream
  obtain ⟨rfl, -⟩ := List.cons.inj hu
  exact heq

/-- A message determines the runes of its text. -/
theorem runes_eq_of_message_eq {t u : Bytes} (h : message v t = message v u) :
    runes t = runes u := by
  have ht := (saved_message (v := v) .strings t).logOf
  rw [h, (saved_message .strings u).logOf] at ht
  exact ofText_injective (Json.str.inj (Except.ok.inj ht)).symm

/-- What is written to a connection determines the texts sent on it, although
    nothing separates the messages. -/
theorem stream_encode_injective (v : Go.Version) :
    Function.Injective fun texts : List (List Char) =>
      Framing.stream (message v) (texts.map Utf8.encode) := by
  intro ts us h
  have hmessages := message_prefixFree.map_eq_of_stream_eq (message v) message_ne_nil h
  rw [List.map_map, List.map_map] at hmessages
  refine List.map_injective_iff.2 (fun t u htu => ?_) hmessages
  have hrunes := runes_eq_of_message_eq htu
  rwa [Go.runes_encode, Go.runes_encode] at hrunes

end LogService.XdrJson
