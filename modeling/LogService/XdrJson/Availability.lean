import LogService.XdrJson.Server

/-!
# When the JSON server outlives its peers

The server parses what `recv` returned before it looks whether this is the end
of the connection, and the empty string is no JSON: `json.loads` raises at the
first close of a connection. So the server outlives no peer at all, although a
chunk that is no log message never changes the table.
-/

namespace LogService.XdrJson

open Python

variable {mydb : MySql} {sessions : List Session}

/-- The row of a chunk that is a log message with a text that can be printed. -/
def textRow (addr : Address) (chunk : Chunk) : Option Row :=
  match logOf chunk.data with
  | .ok (.str text) => if text.isEncodable then some ⟨addr.ip, .str text⟩ else none
  | _ => none

/-- No peer can stop the server: it outlives all of them, a chunk that is no log
    message leaves the table as it is, and the messages of every peer are
    stored when it has closed its connection. -/
structure Available (mydb : MySql) (sessions : List Session) : Prop
    extends (server mydb).Survives sessions where
  unchanged : ∀ x y c, ((server mydb).lts sessions).Reachable x → (server mydb).Step x y →
    x.phase = .serving c → (∀ log, logOf (Server.recv c).1 ≠ .ok log) →
      rows ((server mydb).output y) = rows ((server mydb).output x)
  stored : ∀ before s after, sessions = before ++ s :: after →
    ∃ closed c, ((server mydb).lts sessions).Reachable ⟨after, closed ++ [c], .accepting⟩ ∧
      closed.map Conn.session = before ∧ c.session = s ∧
      (s.chunks.filterMap (textRow s.addr)).Sublist (rows c.actions)

/-- A chunk that is no log message leaves the table as it is, whoever sent it. -/
theorem rows_output_eq {x y : State Action} {c : Conn Action}
    (hx : ((server mydb).lts sessions).Reachable x) (hst : (server mydb).Step x y)
    (hphase : x.phase = .serving c) (hlog : ∀ log, logOf (Server.recv c).1 ≠ .ok log) :
    rows ((server mydb).output y) = rows ((server mydb).output x) := by
  have hsaved : ∀ log, ¬Saved mydb (Server.recv c).1 log := fun log h => hlog log h.logOf
  obtain ⟨actions, e, hturn, hrows⟩ := turn_of_not_saved c.addr hsaved
  rw [(recorded_of_reachable hx).output_step hst hphase, rows_append, Server.nextTurn, hturn, hrows,
    List.append_nil]

/-- Without peers, the server stays in `accept`. -/
theorem conns_eq_nil {x : State Action} (hx : ((server mydb).lts []).Reachable x) :
    x.conns = [] := by
  have hsessions := (recorded_of_reachable hx).sessions
  exact List.map_eq_nil_iff.1 (List.append_eq_nil_iff.1 hsessions).1

/-- The server is available if and only if nobody ever connects. -/
theorem available_iff (mydb : MySql) (sessions : List Session) :
    Available mydb sessions ↔ sessions = [] := by
  constructor
  · intro h
    by_contra hsessions
    refine not_survives (fun addr => ?_) (fun addr data _ => turn_outcome_ne_leave addr data)
      hsessions h.toSurvives
    rw [turn_nil]
    rintro ⟨⟩
  · rintro rfl
    refine ⟨⟨?_, fun before rest h => ?_⟩, fun x y c hx hst => rows_output_eq hx hst,
      fun before s after h => ?_⟩
    · rintro x hx ⟨c, e, hphase⟩
      have hc := State.conns_of_raised hphase
      rw [conns_eq_nil hx] at hc
      cases hc
    · obtain ⟨rfl, rfl⟩ := List.append_eq_nil_iff.1 h.symm
      exact ⟨[], .init rfl, rfl⟩
    · exact absurd h.symm (by simp)

/-- A peer that sends nothing stops the server. -/
theorem not_available_silent : ¬Available MySql.strings [⟨⟨"127.0.0.1", 50000⟩, []⟩] := by
  intro h
  have hraise : ((server MySql.strings).nextTurn
      (Server.accept ⟨⟨"127.0.0.1", 50000⟩, []⟩)).outcome =
        .error (.jsonDecodeError "Expecting value") := congrArg Turn.outcome turn_nil
  exact h.not_raised _ (.step (.step (.init rfl) .accept) (.raise hraise)) ⟨_, _, rfl⟩

end LogService.XdrJson
