import LogService.Server.Runs

/-!
# Whole runs of a server

What a server does is a function of the sessions it is given (`Server.run`): it
serves them one after another, until its receive loop raises. The steps of
`Server.lts` compute this function, for a server whose loop does not go on after
the close of a connection:

* `run_eq`: what has been done so far and what remains to be done are, in every
  state, what `run` says;
* `steps_le`, `exists_halted_run`: and it is done, after no more than two steps
  for each session and one for each chunk.
-/

namespace LogService

open Utf8 (Bytes)
open Python

variable {ω : Type}

namespace Server

variable (srv : Server ω)

/-- What is done while the chunks of a connection are received, up to its close,
    and how its loop ends. -/
def serve (addr : Address) : List Chunk → List ω × Except Exception Control
  | [] => ((srv.turn addr []).actions, (srv.turn addr []).outcome)
  | chunk :: more =>
    match (srv.turn addr chunk.data).outcome with
    | .ok .next => ((srv.turn addr chunk.data).actions ++ (serve addr more).1, (serve addr more).2)
    | .ok .leave => ((srv.turn addr chunk.data).actions, .ok .leave)
    | .error e => ((srv.turn addr chunk.data).actions, .error e)

/-- What is done after the loop has ended: the rest, unless it has raised. -/
def proceed (outcome : Except Exception Control) (rest : List ω × Option Exception) :
    List ω × Option Exception :=
  match outcome with
  | .ok _ => rest
  | .error e => ([], some e)

/-- All that is done when the sessions come in, and the exception it ends with. -/
def run : List Session → List ω × Option Exception
  | [] => ([], none)
  | s :: rest =>
    (srv.accepted s.addr :: (srv.serve s.addr s.chunks).1 ++
        (proceed (srv.serve s.addr s.chunks).2 (run rest)).1,
      (proceed (srv.serve s.addr s.chunks).2 (run rest)).2)

/-- What remains to be done in a state, and the exception it will end with. -/
def remaining (x : State ω) : List ω × Option Exception :=
  match x.phase with
  | .accepting => srv.run x.upcoming
  | .serving c =>
    ((srv.serve c.addr c.arriving).1 ++
        (proceed (srv.serve c.addr c.arriving).2 (srv.run x.upcoming)).1,
      (proceed (srv.serve c.addr c.arriving).2 (srv.run x.upcoming)).2)
  | .raised _ e => ([], some e)

end Server

/-- The number of steps it takes at most to get to the end of a phase. -/
def Phase.size : Phase ω → ℕ
  | .accepting => 0
  | .serving c => c.arriving.length + 1
  | .raised _ _ => 0

/-- The number of steps that are possible from a state. -/
def State.size (x : State ω) : ℕ :=
  (x.upcoming.map fun s => s.chunks.length + 2).sum + x.phase.size

variable {srv : Server ω} {sessions : List Session}

namespace Server

variable (heof : ∀ addr, (srv.turn addr []).outcome ≠ .ok .next)

include heof in
/-- The next iteration does the first of what is done while the connection is
    served. -/
theorem serve_eq (c : Conn ω) :
    srv.serve c.addr c.arriving =
      match (srv.nextTurn c).outcome with
      | .ok .next => ((srv.nextTurn c).actions ++ (srv.serve c.addr (recv c).2).1,
          (srv.serve c.addr (recv c).2).2)
      | outcome => ((srv.nextTurn c).actions, outcome) := by
  rw [nextTurn, recv]
  cases c.arriving with
  | nil =>
    have hne := heof c.addr
    rw [serve]
    split
    · next h => exact absurd h hne
    · rfl
  | cons chunk more =>
    rw [serve]
    rcases h : (srv.turn c.addr chunk.data).outcome with e | ⟨- | -⟩ <;> rfl

include heof in
/-- A step does the first of what remains to be done. -/
theorem Step.remaining_eq {x y : State ω} (hx : x.Recorded srv sessions) (hst : srv.Step x y) :
    srv.output x ++ (srv.remaining x).1 = srv.output y ++ (srv.remaining y).1 ∧
      (srv.remaining x).2 = (srv.remaining y).2 := by
  cases hst with
  | @accept s rest closed =>
    have hout : srv.output ⟨rest, closed, .serving (Server.accept s)⟩ =
        srv.output ⟨s :: rest, closed, .accepting⟩ ++ [srv.accepted s.addr] := by
      simp [output, State.conns, Phase.conn, Server.accept, Conn.actions, Conn.allTurns, Conn.addr]
    rw [hout, List.append_assoc]
    exact ⟨rfl, rfl⟩
  | @next rest closed c hnext =>
    rw [hx.output_step (.next hnext) rfl, remaining, remaining]
    simp only [serve_eq heof c, hnext, List.append_assoc]
    exact ⟨rfl, rfl⟩
  | @leave rest closed c hleave =>
    rw [hx.output_step (.leave hleave) rfl, remaining, remaining]
    simp only [serve_eq heof c, hleave, List.append_assoc]
    exact ⟨rfl, rfl⟩
  | @raise rest closed c e hraise =>
    rw [hx.output_step (.raise hraise) rfl, remaining, remaining]
    simp only [serve_eq heof c, hraise, List.append_assoc]
    exact ⟨rfl, rfl⟩

include heof in
/-- In every state, what has been done and what remains to be done are all that is
    done. -/
theorem run_eq {x : State ω} (hx : (srv.lts sessions).Reachable x) :
    srv.output x ++ (srv.remaining x).1 = (srv.run sessions).1 ∧
      (srv.remaining x).2 = (srv.run sessions).2 := by
  induction hx with
  | init h =>
    cases h
    exact ⟨rfl, rfl⟩
  | step hx hst ih =>
    obtain ⟨hdone, hexception⟩ := hst.remaining_eq heof (recorded_of_reachable hx)
    exact ⟨hdone ▸ ih.1, hexception ▸ ih.2⟩

include heof in
/-- Every step leaves fewer to come. -/
theorem Step.size_lt {x y : State ω} (hst : srv.Step x y) : y.size < x.size := by
  cases hst with
  | @accept s rest closed =>
    simp only [State.size, Phase.size, Server.accept, List.map_cons, List.sum_cons]
    omega
  | @next rest closed c hnext =>
    rw [nextTurn] at hnext
    cases harr : c.arriving with
    | nil =>
      rw [recv, harr] at hnext
      exact absurd hnext (heof c.addr)
    | cons chunk more =>
      simp only [State.size, Phase.size, recv, harr, List.length_cons]
      omega
  | leave _ | raise _ =>
    simp only [State.size, Phase.size]
    omega

/-- The server halts in `accept`, when all sessions have been served, or with an
    exception. -/
theorem remaining_of_halted {x : State ω} (hx : (srv.lts sessions).Halted x) :
    (srv.remaining x).1 = [] ∧
      ((srv.remaining x).2 = none → x.upcoming = [] ∧ x.phase = .accepting) ∧
      ∀ e, (srv.remaining x).2 = some e → ∃ c, x.phase = .raised c e := by
  obtain ⟨upcoming, closed, phase⟩ := x
  cases phase with
  | accepting =>
    cases upcoming with
    | nil =>
      refine ⟨rfl, fun _ => ⟨rfl, rfl⟩, ?_⟩
      rintro _ ⟨⟩
    | cons s rest => exact absurd Step.accept (hx _)
  | serving c =>
    obtain ⟨y, hst⟩ := srv.exists_step upcoming closed c
    exact absurd hst (hx y)
  | raised c e =>
    refine ⟨rfl, ?_, fun e' he => ⟨c, ?_⟩⟩
    · rintro ⟨⟩
    · rw [Option.some.inj he]

include heof in
/-- All runs together: what has been done at any time is the first of what `run`
    says; every run comes to an end, with all of it done, and in an exception if
    and only if `run` says so; and it takes no more than two steps for each
    session and one for each chunk. -/
theorem runs_eq (sessions : List Session) :
    (∀ x, (srv.lts sessions).Reachable x → srv.output x <+: (srv.run sessions).1 ∧
      ∃ y, (srv.lts sessions).Reaches x y ∧ (srv.lts sessions).Halted y) ∧
    (∀ x, (srv.lts sessions).Reachable x → (srv.lts sessions).Halted x →
      srv.output x = (srv.run sessions).1 ∧
      ((srv.run sessions).2 = none → x.upcoming = [] ∧ x.phase = .accepting) ∧
      ∀ e, (srv.run sessions).2 = some e → ∃ c, x.phase = .raised c e) ∧
    ∀ n x y, (srv.lts sessions).Init x → (srv.lts sessions).Steps n x y →
      n ≤ (sessions.map fun s => s.chunks.length + 2).sum := by
  have hsize : ∀ x y, (srv.lts sessions).Step x y → y.size < x.size := fun _ _ hst =>
    hst.size_lt heof
  refine ⟨fun x hx => ⟨?_, Lts.exists_halted hsize x⟩, fun x hx hhalted => ?_, ?_⟩
  · rw [← (run_eq heof hx).1]
    exact List.prefix_append _ _
  · obtain ⟨hdone, hexception⟩ := run_eq heof hx
    obtain ⟨hnil, hnone, hsome⟩ := remaining_of_halted hhalted
    rw [hnil, List.append_nil] at hdone
    rw [← hexception]
    exact ⟨hdone, hnone, hsome⟩
  · rintro n x y rfl hsteps
    exact (Nat.le_add_right _ _).trans (hsteps.add_le hsize)

end Server

end LogService
