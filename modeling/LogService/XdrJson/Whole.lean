import LogService.Server.Whole
import LogService.XdrJson.Server

/-!
# Whole runs of the JSON server

Whoever connects and whatever is sent: the server inserts a row for each chunk of
the first connection, up to the first chunk that it does not save, and raises
there, or else at the close of this connection.
-/

namespace LogService.XdrJson

open Utf8 (Bytes)
open Python

/-- The row that is inserted for the bytes. -/
def row? (mydb : MySql) (addr : Address) (data : Bytes) : Option Row :=
  match logOf data with
  | .ok log => if isPrintable log && mydb.accepts log then some ⟨addr.ip, log⟩ else none
  | .error _ => none

/-- The rows of the chunks, up to the first chunk that has none. -/
def rowsOf (mydb : MySql) (addr : Address) : List Chunk → List Row
  | [] => []
  | chunk :: more =>
    match row? mydb addr chunk.data with
    | none => []
    | some row => row :: rowsOf mydb addr more

variable {mydb : MySql}

theorem row?_of_saved (addr : Address) {data : Bytes} {log : Json} (h : Saved mydb data log) :
    row? mydb addr data = some ⟨addr.ip, log⟩ := by
  simp only [row?, h.logOf, h.isPrintable, h.accepts, Bool.and_self, if_true]

theorem row?_of_not_saved (addr : Address) {data : Bytes} (h : ∀ log, ¬Saved mydb data log) :
    row? mydb addr data = none := by
  rw [row?]
  split
  · next log hlog =>
    refine if_neg fun hcond => h log ?_
    obtain ⟨hprint, haccepts⟩ := Bool.and_eq_true_iff.1 hcond
    exact ⟨hlog, hprint, haccepts⟩
  · rfl

/-- A connection is served up to the first chunk that is not saved, or to its
    close, and the loop raises. -/
theorem serve_eq (mydb : MySql) (addr : Address) (chunks : List Chunk) :
    rows ((server mydb).serve addr chunks).1 = rowsOf mydb addr chunks ∧
      ∃ e, ((server mydb).serve addr chunks).2 = .error e := by
  induction chunks with
  | nil =>
    rw [Server.serve, turn_nil]
    exact ⟨rfl, _, rfl⟩
  | cons chunk more ih =>
    obtain ⟨hrows, e, herror⟩ := ih
    rw [Server.serve, rowsOf]
    by_cases hsaved : ∃ log, Saved mydb chunk.data log
    · obtain ⟨log, hlog⟩ := hsaved
      rw [turn_of_saved addr hlog, row?_of_saved addr hlog]
      refine ⟨?_, e, herror⟩
      rw [rows_append, hrows]
      rfl
    · obtain ⟨actions, e', hturn, hnone⟩ := turn_of_not_saved addr (not_exists.1 hsaved)
      rw [hturn, row?_of_not_saved addr (not_exists.1 hsaved)]
      exact ⟨hnone, e', rfl⟩

/-- In every run, whoever connects first and whatever is sent, the rows inserted are
    those of the chunks received, up to the first chunk that has none. Every run
    ends with an exception, with nobody else served, after no more than two steps
    for each session and one for each chunk. -/
theorem runs_rows_eq (mydb : MySql) (s : Session) (rest : List Session) :
    (∀ x, ((server mydb).lts (s :: rest)).Reachable x →
      rows ((server mydb).output x) <+: rowsOf mydb s.addr s.chunks ∧
      ∃ y, ((server mydb).lts (s :: rest)).Reaches x y ∧
        ((server mydb).lts (s :: rest)).Halted y) ∧
    (∀ x, ((server mydb).lts (s :: rest)).Reachable x →
      ((server mydb).lts (s :: rest)).Halted x →
      rows ((server mydb).output x) = rowsOf mydb s.addr s.chunks ∧ x.Raised ∧
        x.upcoming = rest) ∧
    ∀ n x y, ((server mydb).lts (s :: rest)).Init x →
      ((server mydb).lts (s :: rest)).Steps n x y →
      n ≤ ((s :: rest).map fun s => s.chunks.length + 2).sum := by
  have heof : ∀ addr, ((server mydb).turn addr []).outcome ≠ .ok .next := by
    intro addr
    rw [turn_nil]
    rintro ⟨⟩
  obtain ⟨hreachable, hhalted, hsteps⟩ := Server.runs_eq heof (s :: rest)
  obtain ⟨hserve, e, herror⟩ := serve_eq mydb s.addr s.chunks
  have hrun : rows ((server mydb).run (s :: rest)).1 = rowsOf mydb s.addr s.chunks ∧
      ((server mydb).run (s :: rest)).2 = some e := by
    rw [Server.run, herror, Server.proceed, List.append_nil, ← hserve]
    exact ⟨rfl, rfl⟩
  refine ⟨fun x hx => ?_, fun x hx hhalt => ?_, hsteps⟩
  · obtain ⟨hdone, hend⟩ := hreachable x hx
    exact ⟨hrun.1 ▸ hdone.filterMap _, hend⟩
  · obtain ⟨hdone, -, hraised⟩ := hhalted x hx hhalt
    obtain ⟨c, hc⟩ := hraised e hrun.2
    have hrec := recorded_of_reachable hx
    have hclosed : x.closed = [] := by
      refine hrec.closed_eq_nil (fun addr => ?_) fun addr data _ => turn_outcome_ne_leave addr data
      rw [turn_nil]
      rintro ⟨⟩
    -- The sessions are that of the connection that raised, and those to come.
    have hsessions := hrec.sessions
    rw [State.sessions, State.conns, hclosed, hc] at hsessions
    exact ⟨by rw [hdone, hrun.1], ⟨c, e, hc⟩, (List.cons.inj hsessions).2⟩

end LogService.XdrJson
