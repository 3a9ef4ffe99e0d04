import LogService.Python.Basic
import LogService.Lts

/-!
# The servers

Both servers are the same two loops: the outer one accepts a connection, the
inner one calls `conn.recv(1024)` again and again, and does something with the
bytes it returns, until the peer has closed the connection and `recv` returns
no bytes. They differ in what they do with the bytes (`Server.body`).

What a connection brings is a `Session`: its peer, and the chunks in which its
bytes arrive. The servers run on a list of sessions, one after another
(`Server.lts`). An exception nobody catches ends the process.
-/

namespace LogService

open Utf8 (Bytes)
open Python

/-! ## Connections -/

/-- The address of a peer, the pair `(addr[0], addr[1])`. -/
structure Address where
  ip : String
  port : ℕ
  deriving DecidableEq, Repr

/-- The most bytes a call of `recv` returns. -/
def recvSize : ℕ := 1024

/-- What `recv` returns while there are data. -/
structure Chunk where
  data : Bytes
  ne_nil : data ≠ []
  length_le : data.length ≤ recvSize

/-- A connection: the peer, and the chunks `recv` returns until the peer has
    closed the connection. -/
structure Session where
  addr : Address
  chunks : List Chunk

/-- Whether the receive loop goes on, or is left. -/
inductive Control
  | next
  | leave
  deriving DecidableEq, Repr

/-- A server, up to what it does: what it prints about a connection it has
    accepted, and the body of its receive loop, run on what `recv` returned. -/
structure Server (ω : Type) where
  accepted : Address → ω
  body : Address → Bytes → Py ω Control

/-- An iteration of the receive loop: the bytes received, the actions
    performed, and how it ended. -/
structure Turn (ω : Type) where
  data : Bytes
  actions : List ω
  outcome : Except Exception Control

variable {ω : Type}

/-- The iteration on the bytes `data`. -/
def Server.turn (srv : Server ω) (addr : Address) (data : Bytes) : Turn ω :=
  match (srv.body addr data).run [] with
  | .ok c done => ⟨data, done, .ok c⟩
  | .error e done => ⟨data, done, .error e⟩

@[simp] theorem Server.turn_data (srv : Server ω) (addr : Address) (data : Bytes) :
    (srv.turn addr data).data = data := by
  rw [Server.turn]
  split <;> rfl

theorem Server.turn_of_ok {srv : Server ω} {addr : Address} {data : Bytes} {c : Control}
    {done : List ω} (h : (srv.body addr data).run [] = .ok c done) :
    srv.turn addr data = ⟨data, done, .ok c⟩ := by
  rw [Server.turn, h]

theorem Server.turn_of_error {srv : Server ω} {addr : Address} {data : Bytes} {e : Exception}
    {done : List ω} (h : (srv.body addr data).run [] = .error e done) :
    srv.turn addr data = ⟨data, done, .error e⟩ := by
  rw [Server.turn, h]

/-- A connection being served: the chunks still to arrive, the iterations that
    went on to the next, and the one that did not, at the end. -/
structure Conn (ω : Type) where
  session : Session
  arriving : List Chunk
  turns : List (Turn ω)
  final : Option (Turn ω)

namespace Conn

variable (c : Conn ω)

/-- The peer's address. -/
def addr : Address := c.session.addr

/-- All the iterations. -/
def allTurns : List (Turn ω) := c.turns ++ c.final.toList

/-- The chunks received so far. -/
def received : List Bytes := (c.allTurns.map Turn.data).filter (· ≠ [])

/-- The number of bytes received so far. -/
def bytesReceived : ℕ := c.received.flatten.length

/-- All the actions performed, in order. -/
def actions : List ω := c.allTurns.flatMap Turn.actions

/-- All the chunks received so far have been processed without raising. -/
def Processed : Prop := ∀ t ∈ c.allTurns, t.data ≠ [] → t.outcome.isOk

end Conn

/-! ## The process -/

/-- Where the process stands: in `accept`, in the receive loop of a connection,
    or nowhere any more, after an exception. -/
inductive Phase (ω : Type)
  | accepting
  | serving (c : Conn ω)
  | raised (c : Conn ω) (e : Exception)

/-- A state of the process, with the sessions that have not been accepted yet,
    and the connections whose receive loops have been left. -/
structure State (ω : Type) where
  upcoming : List Session
  closed : List (Conn ω)
  phase : Phase ω

/-- The connection being served, or that was when the process ended. -/
def Phase.conn : Phase ω → Option (Conn ω)
  | .accepting => none
  | .serving c => some c
  | .raised c _ => some c

/-- The connections accepted so far. -/
def State.conns (s : State ω) : List (Conn ω) := s.closed ++ s.phase.conn.toList

/-- All the sessions, of the connections accepted so far and those to come. -/
def State.sessions (s : State ω) : List Session := s.conns.map Conn.session ++ s.upcoming

/-- The process has ended with an exception. -/
def State.Raised (s : State ω) : Prop := ∃ c e, s.phase = .raised c e

namespace Server

variable (srv : Server ω)

/-- All that the server did, in order. -/
def output (s : State ω) : List ω :=
  s.conns.flatMap fun c => srv.accepted c.addr :: c.actions

/-- A connection just accepted. -/
def accept (s : Session) : Conn ω := ⟨s, s.chunks, [], none⟩

/-- What `recv` returns, and the chunks that are left: no bytes, if the peer
    has closed the connection. -/
def recv (c : Conn ω) : Bytes × List Chunk :=
  match c.arriving with
  | [] => ([], [])
  | chunk :: rest => (chunk.data, rest)

/-- The next iteration. -/
def nextTurn (c : Conn ω) : Turn ω := srv.turn c.addr (recv c).1

/-- The steps of the process. -/
inductive Step : State ω → State ω → Prop
  | accept {s : Session} {rest : List Session} {closed : List (Conn ω)} :
      Step ⟨s :: rest, closed, .accepting⟩ ⟨rest, closed, .serving (accept s)⟩
  | next {rest : List Session} {closed : List (Conn ω)} {c : Conn ω} :
      (srv.nextTurn c).outcome = .ok .next →
      Step ⟨rest, closed, .serving c⟩ ⟨rest, closed, .serving
        { c with arriving := (recv c).2, turns := c.turns ++ [srv.nextTurn c] }⟩
  | leave {rest : List Session} {closed : List (Conn ω)} {c : Conn ω} :
      (srv.nextTurn c).outcome = .ok .leave →
      Step ⟨rest, closed, .serving c⟩
        ⟨rest, closed ++ [{ c with arriving := (recv c).2, final := some (srv.nextTurn c) }],
          .accepting⟩
  | raise {rest : List Session} {closed : List (Conn ω)} {c : Conn ω} {e : Exception} :
      (srv.nextTurn c).outcome = .error e →
      Step ⟨rest, closed, .serving c⟩ ⟨rest, closed, .raised
        { c with arriving := (recv c).2, final := some (srv.nextTurn c) } e⟩

/-- The server running on the sessions `sessions`. -/
def lts (sessions : List Session) : Lts (State ω) where
  Init s := s = ⟨sessions, [], .accepting⟩
  Step := srv.Step

/-- The server outlives the sessions: it is never ended by an exception, and
    after each of them it is back in `accept`, with the rest still to come. -/
structure Survives (sessions : List Session) : Prop where
  not_raised : ∀ s, (srv.lts sessions).Reachable s → ¬s.Raised
  back : ∀ before rest, sessions = before ++ rest →
    ∃ closed, (srv.lts sessions).Reachable ⟨rest, closed, .accepting⟩ ∧
      closed.map Conn.session = before

end Server

end LogService
