import LogService.Server

/-!
# The runs of a server

What the states of `Server.lts` keep of the connections are the records of the
receive loop on their chunks, and this in every reachable state.

* `recorded_of_reachable`: every connection is that of its session, received in
  order, and each of its iterations is that of the loop on the bytes received;
* `output_step`: an iteration adds its actions to the output;
* `actions_eq`: a connection's actions are those of the chunks received, one
  after another;
* `reachable_serving`, `reachable_accepting`: chunks none of which raises are
  received, up to the close;
* `survives_iff`, `not_survives`: when a server outlives its peers.
-/

namespace LogService

open Utf8 (Bytes)
open Python

variable {ω : Type} {srv : Server ω} {sessions : List Session}

/-! ## Records -/

/-- The record of a connection: what was received are the first chunks of the
    session, the others are still to arrive, and the iterations are those on
    what was received. No bytes are returned at the end only. -/
structure Conn.IsRecord (srv : Server ω) (c : Conn ω) : Prop where
  received_append : c.received ++ c.arriving.map Chunk.data = c.session.chunks.map Chunk.data
  turn : ∀ t ∈ c.allTurns, t = srv.turn c.addr t.data
  next : ∀ t ∈ c.turns, t.outcome = .ok .next
  eof : ∀ t ∈ c.allTurns, t.data = [] → c.arriving = []

/-- The records of a state: the sessions are those accepted and those to come,
    in order, and how a connection ended is how its last iteration did. -/
structure State.Recorded (srv : Server ω) (sessions : List Session) (x : State ω) : Prop where
  sessions : x.sessions = sessions
  conns : ∀ c ∈ x.conns, c.IsRecord srv
  closed : ∀ c ∈ x.closed, ∃ t, c.final = some t ∧ t.outcome = .ok .leave
  serving : ∀ c, x.phase = .serving c → c.final = none
  raised : ∀ c e, x.phase = .raised c e → ∃ t, c.final = some t ∧ t.outcome = .error e

/-- What `recv` returns was arriving, unless nothing was. -/
theorem Server.recv_append (c : Conn ω) :
    [(Server.recv c).1].filter (· ≠ []) ++ (Server.recv c).2.map Chunk.data =
      c.arriving.map Chunk.data := by
  rw [Server.recv]
  split
  · next h => simp [h]
  · next chunk rest h => simp [h, chunk.ne_nil]

/-- Once `recv` has returned no bytes, nothing is arriving. -/
theorem Server.recv_eq_nil {c : Conn ω} (h : (Server.recv c).1 = []) :
    c.arriving = [] ∧ (Server.recv c).2 = [] := by
  cases harr : c.arriving with
  | nil => exact ⟨rfl, by rw [Server.recv, harr]⟩
  | cons chunk rest =>
    rw [Server.recv, harr] at h
    exact absurd h chunk.ne_nil

/-- An iteration adds to the record, going on or not. -/
theorem Conn.IsRecord.extend {c c' : Conn ω} (h : c.IsRecord srv)
    (hs : c'.session = c.session) (harr : c'.arriving = (Server.recv c).2)
    (hall : c'.allTurns = c.allTurns ++ [srv.nextTurn c])
    (hnext : ∀ t ∈ c'.turns, t.outcome = .ok .next) : c'.IsRecord srv where
  received_append := by
    have hrec : c'.received = c.received ++ [(Server.recv c).1].filter (· ≠ []) := by
      rw [Conn.received, hall, List.map_append, List.filter_append, Conn.received]
      simp [Server.nextTurn]
    rw [hrec, harr, hs, List.append_assoc, Server.recv_append, h.received_append]
  turn t ht := by
    rw [hall, List.mem_append, List.mem_singleton] at ht
    rw [Conn.addr, hs]
    rcases ht with ht | rfl
    · exact h.turn t ht
    · rw [Server.nextTurn, Server.turn_data]
      rfl
  next := hnext
  eof t ht hdata := by
    rw [hall, List.mem_append, List.mem_singleton] at ht
    rw [harr]
    rcases ht with ht | rfl
    · rw [Server.recv, h.eof t ht hdata]
    · rw [Server.nextTurn, Server.turn_data] at hdata
      exact (Server.recv_eq_nil hdata).2

/-- A connection just accepted has a record: nothing yet. -/
theorem Server.isRecord_accept (s : Session) : (Server.accept s : Conn ω).IsRecord srv where
  received_append := by simp [Server.accept, Conn.received, Conn.allTurns]
  turn := by simp [Server.accept, Conn.allTurns]
  next := by simp [Server.accept]
  eof := by simp [Server.accept, Conn.allTurns]

/-- A connection is that of the session in its place. -/
theorem State.getElem?_sessions {x : State ω} {i : ℕ} {c : Conn ω} (hc : x.conns[i]? = some c) :
    x.sessions[i]? = some c.session := by
  have hi : i < (x.conns.map Conn.session).length := by
    rw [List.length_map]
    exact (List.getElem?_eq_some_iff.1 hc).1
  rw [State.sessions, List.getElem?_append_left hi, List.getElem?_map, hc, Option.map_some]

/-- The connections closed are the first ones. -/
theorem State.conns_of_closed {x : State ω} {i : ℕ} {c : Conn ω} (hc : x.closed[i]? = some c) :
    x.conns[i]? = some c := by
  rw [State.conns, List.getElem?_append_left (List.getElem?_eq_some_iff.1 hc).1, hc]

/-- The connection on which the server has raised is the next one. -/
theorem State.conns_of_raised {x : State ω} {c : Conn ω} {e : Exception}
    (hphase : x.phase = .raised c e) : x.conns[x.closed.length]? = some c := by
  simp [State.conns, hphase, Phase.conn]

/-- No step changes the sessions: it accepts one, or receives a chunk of one. -/
theorem Server.Step.sessions_eq {x y : State ω} (hst : srv.Step x y) : y.sessions = x.sessions := by
  cases hst <;> simp [State.sessions, State.conns, Phase.conn, Server.accept]

/-- While it serves a connection, it can go on. -/
theorem Server.exists_step (srv : Server ω) (rest : List Session) (closed : List (Conn ω))
    (c : Conn ω) :
    ∃ y, srv.Step ⟨rest, closed, .serving c⟩ y := by
  rcases h : (srv.nextTurn c).outcome with e | ⟨- | -⟩
  · exact ⟨_, .raise h⟩
  · exact ⟨_, .next h⟩
  · exact ⟨_, .leave h⟩

/-- Every step keeps the records. -/
theorem State.Recorded.step {x y : State ω} (h : x.Recorded srv sessions) (hst : srv.Step x y) :
    y.Recorded srv sessions := by
  have hsessions : y.sessions = sessions := hst.sessions_eq.trans h.sessions
  cases hst with
  | @accept s rest closed =>
    refine ⟨hsessions, fun c hc => ?_, h.closed, ?_, ?_⟩
    · rcases List.mem_append.1 hc with hc | hc
      · exact h.conns c (List.mem_append_left _ hc)
      · rw [List.mem_singleton.1 hc]
        exact Server.isRecord_accept s
    · rintro _ ⟨⟩
      rfl
    · rintro _ _ ⟨⟩
  | @next rest closed c hnext =>
    have hc : c.IsRecord srv := h.conns c (by simp [State.conns, Phase.conn])
    have hfinal : c.final = none := h.serving c rfl
    refine ⟨hsessions, fun c' hc' => ?_, h.closed, ?_, ?_⟩
    · rcases List.mem_append.1 hc' with hc' | hc'
      · exact h.conns c' (List.mem_append_left _ hc')
      · rw [List.mem_singleton.1 hc']
        refine hc.extend rfl rfl (by simp [Conn.allTurns, hfinal]) fun t ht => ?_
        rcases List.mem_append.1 ht with ht | ht
        · exact hc.next t ht
        · rw [List.mem_singleton.1 ht]
          exact hnext
    · rintro _ ⟨⟩
      exact hfinal
    · rintro _ _ ⟨⟩
  | @leave rest closed c hleave =>
    have hc : c.IsRecord srv := h.conns c (by simp [State.conns, Phase.conn])
    have hfinal : c.final = none := h.serving c rfl
    refine ⟨hsessions, fun c' hc' => ?_, fun c' hc' => ?_, ?_, ?_⟩
    · simp only [State.conns, Phase.conn, Option.toList_none, List.append_nil, List.mem_append,
        List.mem_singleton] at hc'
      rcases hc' with hc' | rfl
      · exact h.conns c' (List.mem_append_left _ hc')
      · exact hc.extend rfl rfl (by simp [Conn.allTurns, hfinal]) hc.next
    · rcases List.mem_append.1 hc' with hc' | hc'
      · exact h.closed c' hc'
      · rw [List.mem_singleton.1 hc']
        exact ⟨_, rfl, hleave⟩
    · rintro _ ⟨⟩
    · rintro _ _ ⟨⟩
  | @raise rest closed c e hraise =>
    have hc : c.IsRecord srv := h.conns c (by simp [State.conns, Phase.conn])
    have hfinal : c.final = none := h.serving c rfl
    refine ⟨hsessions, fun c' hc' => ?_, h.closed, ?_, ?_⟩
    · rcases List.mem_append.1 hc' with hc' | hc'
      · exact h.conns c' (List.mem_append_left _ hc')
      · rw [List.mem_singleton.1 hc']
        exact hc.extend rfl rfl (by simp [Conn.allTurns, hfinal]) hc.next
    · rintro _ ⟨⟩
    · rintro _ _ ⟨⟩
      exact ⟨_, rfl, hraise⟩

/-- Every reachable state has these records. -/
theorem recorded_of_reachable {x : State ω} (hx : (srv.lts sessions).Reachable x) :
    x.Recorded srv sessions := by
  refine hx.induct (P := State.Recorded srv sessions) ?_ fun x y _ hst hx => hx.step hst
  rintro _ rfl
  refine ⟨rfl, ?_, ?_, ?_, ?_⟩
  · rintro c ⟨⟩
  · rintro c ⟨⟩
  · rintro c ⟨⟩
  · rintro c e ⟨⟩

/-- An iteration adds its actions to the output, and takes nothing back. -/
theorem State.Recorded.output_step {x y : State ω} (h : x.Recorded srv sessions)
    (hst : srv.Step x y) {c : Conn ω} (hphase : x.phase = .serving c) :
    srv.output y = srv.output x ++ (srv.nextTurn c).actions := by
  have hfinal : c.final = none := h.serving c hphase
  cases hst with
  | accept => cases hphase
  | next _ | leave _ | raise _ =>
    cases hphase
    simp [Server.output, State.conns, Phase.conn, Conn.actions, Conn.allTurns, hfinal, Conn.addr]

/-! ## What a record says -/

namespace Conn

variable {c : Conn ω}

/-- A connection's actions are those on the chunks received, if the server
    does nothing when there are none. -/
theorem IsRecord.actions_eq (h : c.IsRecord srv) (heof : (srv.turn c.addr []).actions = []) :
    c.actions = c.received.flatMap fun b => (srv.turn c.addr b).actions := by
  have hturns : ∀ l : List (Turn ω), (∀ t ∈ l, t = srv.turn c.addr t.data) →
      l.flatMap Turn.actions =
        ((l.map Turn.data).filter (· ≠ [])).flatMap fun b => (srv.turn c.addr b).actions := by
    intro l hl
    induction l with
    | nil => rfl
    | cons t l ih =>
      rw [List.forall_mem_cons] at hl
      obtain ⟨ht, hl⟩ := hl
      rw [List.flatMap_cons, ih hl, List.map_cons]
      by_cases hdata : t.data = []
      · rw [hdata] at ht
        simp [ht, heof]
      · rw [List.filter_cons_of_pos (by simpa using hdata), List.flatMap_cons, ← ht]
  exact hturns _ h.turn

/-- The chunks received are the first of the session's. -/
theorem IsRecord.exists_chunks (h : c.IsRecord srv) :
    ∃ l more, c.session.chunks = l ++ more ∧ c.received = l.map Chunk.data := by
  obtain ⟨l, more, hchunks, hl, -⟩ := List.map_eq_append_iff.1 h.received_append.symm
  exact ⟨l, more, hchunks, hl.symm⟩

/-- A connection has been processed if no chunk received made the loop raise. -/
theorem IsRecord.processed_iff (h : c.IsRecord srv) :
    c.Processed ↔ ∀ b ∈ c.received, (srv.turn c.addr b).outcome.isOk := by
  rw [Processed, received]
  constructor
  · intro hp b hb
    simp only [List.mem_filter, List.mem_map, decide_eq_true_eq] at hb
    obtain ⟨⟨t, ht, rfl⟩, hne⟩ := hb
    rw [← h.turn t ht]
    exact hp t ht hne
  · intro hr t ht hne
    rw [h.turn t ht]
    exact hr t.data (List.mem_filter.2 ⟨List.mem_map_of_mem ht, by simpa using hne⟩)

/-- The loop went on after every chunk received but the last. -/
theorem IsRecord.next_of_received (h : c.IsRecord srv) {pre post : List Bytes} {b b' : Bytes}
    (hrec : c.received = pre ++ b :: b' :: post) : (srv.turn c.addr b).outcome = .ok .next := by
  -- Only the final iteration may end the loop, and it is on the last bytes.
  have hsplit : c.received = (c.turns.map Turn.data).filter (· ≠ []) ++
      (c.final.toList.map Turn.data).filter (· ≠ []) := by
    rw [received, allTurns, List.map_append, List.filter_append]
  have hfinal : ((c.final.toList.map Turn.data).filter (· ≠ [])).length ≤ 1 :=
    (List.length_filter_le _ _).trans (by cases c.final <;> simp)
  have hmem : b ∈ (c.turns.map Turn.data).filter (· ≠ []) := by
    rw [hsplit, List.append_eq_append_iff] at hrec
    rcases hrec with ⟨as, hpre, hrest⟩ | ⟨bs, hturns, hrest⟩
    · have hlen := congrArg List.length hrest
      simp only [List.length_append, List.length_cons] at hlen
      omega
    · cases bs with
      | nil =>
        have hlen := congrArg List.length hrest
        simp only [List.nil_append, List.length_cons] at hlen
        omega
      | cons b₁ bs =>
        rw [List.cons_append, List.cons.injEq] at hrest
        rw [hturns, hrest.1]
        simp
  simp only [List.mem_filter, List.mem_map] at hmem
  obtain ⟨⟨t, ht, rfl⟩, -⟩ := hmem
  have hall : t ∈ c.allTurns := List.mem_append_left _ ht
  rw [← h.turn t hall]
  exact h.next t ht

/-- As long as a connection is served, the loop went on after every chunk. -/
theorem IsRecord.next_of_serving (h : c.IsRecord srv) (hfinal : c.final = none) {b : Bytes}
    (hb : b ∈ c.received) : (srv.turn c.addr b).outcome = .ok .next := by
  simp only [received, allTurns, hfinal, Option.toList_none, List.append_nil, List.mem_filter,
    List.mem_map] at hb
  obtain ⟨⟨t, ht, rfl⟩, -⟩ := hb
  have hall : t ∈ c.allTurns := List.mem_append_left _ ht
  rw [← h.turn t hall]
  exact h.next t ht

end Conn

/-! ## Progress -/

/-- The loop goes on after every chunk of the session. -/
def Server.GoesOn (srv : Server ω) (s : Session) : Prop :=
  ∀ chunk ∈ s.chunks, (srv.turn s.addr chunk.data).outcome = .ok .next

section Progress

variable {rest : List Session} {closed : List (Conn ω)} {s : Session}

/-- Chunks after which the loop goes on are received, one after another. -/
theorem reaches_serving (l more : List Chunk) (turns : List (Turn ω))
    (hl : ∀ chunk ∈ l, (srv.turn s.addr chunk.data).outcome = .ok .next) :
    Relation.ReflTransGen srv.Step ⟨rest, closed, .serving ⟨s, l ++ more, turns, none⟩⟩
      ⟨rest, closed, .serving
        ⟨s, more, turns ++ l.map fun chunk => srv.turn s.addr chunk.data, none⟩⟩ := by
  induction l generalizing turns with
  | nil =>
    rw [List.nil_append, List.map_nil, List.append_nil]
  | cons chunk l ih =>
    rw [List.forall_mem_cons] at hl
    have hstep : srv.Step ⟨rest, closed, .serving ⟨s, chunk :: (l ++ more), turns, none⟩⟩
        ⟨rest, closed, .serving
          ⟨s, l ++ more, turns ++ [srv.turn s.addr chunk.data], none⟩⟩ := .next hl.1
    have hl' := ih (turns ++ [srv.turn s.addr chunk.data]) hl.2
    rw [List.append_assoc] at hl'
    exact .head hstep hl'

/-- A session after whose chunks the loop goes on is served up to its close. -/
theorem reaches_accepting (hs : srv.GoesOn s) (heof : (srv.turn s.addr []).outcome = .ok .leave) :
    ∃ c : Conn ω, c.session = s ∧
      Relation.ReflTransGen srv.Step ⟨s :: rest, closed, .accepting⟩
        ⟨rest, closed ++ [c], .accepting⟩ := by
  have haccept : srv.Step ⟨s :: rest, closed, .accepting⟩
      ⟨rest, closed, .serving ⟨s, s.chunks ++ [], [], none⟩⟩ := by
    rw [List.append_nil]
    exact .accept
  exact ⟨_, rfl, (Relation.ReflTransGen.head haccept (reaches_serving s.chunks [] [] hs)).tail
    (.leave heof)⟩

/-- Sessions after whose chunks the loop goes on are served one after another. -/
theorem reaches_accepting_append (before : List Session) (hs : ∀ s ∈ before, srv.GoesOn s)
    (heof : ∀ addr, (srv.turn addr []).outcome = .ok .leave) :
    ∃ cs : List (Conn ω), cs.map Conn.session = before ∧
      Relation.ReflTransGen srv.Step ⟨before ++ rest, closed, .accepting⟩
        ⟨rest, closed ++ cs, .accepting⟩ := by
  induction before generalizing closed with
  | nil => exact ⟨[], rfl, by rw [List.append_nil]; exact .refl⟩
  | cons s before ih =>
    rw [List.forall_mem_cons] at hs
    obtain ⟨c, hc, hr⟩ := reaches_accepting hs.1 (heof s.addr)
    obtain ⟨cs, hcs, hr'⟩ := ih hs.2
    rw [List.append_assoc] at hr'
    exact ⟨c :: cs, by rw [List.map_cons, hc, hcs], hr.trans hr'⟩

end Progress

/-- After sessions the loop goes on in, the server is back in `accept`. -/
theorem reachable_accepting {before rest : List Session} (hsessions : sessions = before ++ rest)
    (hs : ∀ s ∈ before, srv.GoesOn s) (heof : ∀ addr, (srv.turn addr []).outcome = .ok .leave) :
    ∃ closed, (srv.lts sessions).Reachable ⟨rest, closed, .accepting⟩ ∧
      closed.map Conn.session = before := by
  obtain ⟨cs, hcs, hr⟩ := reaches_accepting_append before hs heof
  have hinit : (srv.lts sessions).Reachable ⟨before ++ rest, [], .accepting⟩ :=
    .init (by rw [hsessions]; rfl)
  exact ⟨cs, hinit.reaches hr, hcs⟩

/-- Then the first chunks of the next session are received, if the loop goes on
    after them. -/
theorem reachable_serving {before rest : List Session} {s : Session}
    (hsessions : sessions = before ++ s :: rest) (hs : ∀ s ∈ before, srv.GoesOn s)
    (heof : ∀ addr, (srv.turn addr []).outcome = .ok .leave) {l more : List Chunk}
    (hchunks : s.chunks = l ++ more)
    (hl : ∀ chunk ∈ l, (srv.turn s.addr chunk.data).outcome = .ok .next) :
    ∃ closed c, (srv.lts sessions).Reachable ⟨rest, closed, .serving c⟩ ∧
      closed.map Conn.session = before ∧ c.session = s ∧ c.arriving = more ∧
      c.received = l.map Chunk.data := by
  obtain ⟨closed, hr, hclosed⟩ := reachable_accepting hsessions hs heof
  have haccept : srv.Step ⟨s :: rest, closed, .accepting⟩
      ⟨rest, closed, .serving ⟨s, l ++ more, [], none⟩⟩ := by
    rw [← hchunks]
    exact .accept
  refine ⟨closed, _, (hr.step haccept).reaches (reaches_serving l more [] hl), hclosed, rfl, rfl,
    ?_⟩
  have hdata : (Turn.data ∘ fun chunk : Chunk => srv.turn s.addr chunk.data) = Chunk.data := by
    ext chunk : 1
    exact Server.turn_data ..
  simp only [Conn.received, Conn.allTurns, List.nil_append, Option.toList_none, List.append_nil,
    List.map_map, hdata]
  refine List.filter_eq_self.2 fun b hb => ?_
  obtain ⟨chunk, -, rfl⟩ := List.mem_map.1 hb
  exact decide_eq_true chunk.ne_nil

/-! ## Survival -/

/-- The connections that have been closed are those the loop went on in, up to
    the close of the peer, if it is never left while there are data. -/
theorem State.Recorded.goesOn_of_closed {x : State ω} (h : x.Recorded srv sessions)
    (hdata : ∀ addr data, data ≠ [] → (srv.turn addr data).outcome ≠ .ok .leave)
    {c : Conn ω} (hc : c ∈ x.closed) :
    srv.GoesOn c.session ∧ (srv.turn c.addr []).outcome = .ok .leave := by
  have hrec : c.IsRecord srv := h.conns c (List.mem_append_left _ hc)
  obtain ⟨t, hfinal, hleave⟩ := h.closed c hc
  have ht : t ∈ c.allTurns := by simp [Conn.allTurns, hfinal]
  have hturn : t = srv.turn c.addr t.data := hrec.turn t ht
  have heof : t.data = [] := by
    by_contra hne
    exact hdata _ _ hne (hturn ▸ hleave)
  rw [heof] at hturn
  refine ⟨fun chunk hchunk => ?_, hturn ▸ hleave⟩
  -- All the chunks have been received, the last iteration being on no bytes.
  have hreceived := hrec.received_append
  rw [hrec.eof t ht heof, List.map_nil, List.append_nil] at hreceived
  have hmem : chunk.data ∈ c.received := hreceived ▸ List.mem_map_of_mem hchunk
  simp only [Conn.received, Conn.allTurns, List.mem_filter, List.mem_map, List.mem_append,
    hfinal, Option.toList_some, List.mem_singleton] at hmem
  obtain ⟨⟨t', ht', hdata'⟩, -⟩ := hmem
  rcases ht' with ht' | rfl
  · have hturn' := hrec.turn t' (List.mem_append_left _ ht')
    rw [hdata'] at hturn'
    exact hturn' ▸ hrec.next t' ht'
  · exact absurd (hdata'.symm.trans heof) chunk.ne_nil

/-- Before a connection was accepted, the loop went on in all the sessions. -/
theorem State.Recorded.goesOn_of_lt {x : State ω} (h : x.Recorded srv sessions)
    (hdata : ∀ addr data, data ≠ [] → (srv.turn addr data).outcome ≠ .ok .leave) {i : ℕ}
    {c : Conn ω} (hc : x.conns[i]? = some c) : ∀ s ∈ sessions.take i, srv.GoesOn s := by
  have hi : i < x.conns.length := (List.getElem?_eq_some_iff.1 hc).1
  have hclosed : i ≤ x.closed.length := by
    have hphase : x.phase.conn.toList.length ≤ 1 := by cases x.phase.conn <;> simp
    rw [State.conns, List.length_append] at hi
    omega
  intro s hs
  rw [← h.sessions, State.sessions,
    List.take_append_of_le_length (by rw [List.length_map]; exact hi.le),
    ← List.map_take, State.conns, List.take_append_of_le_length hclosed, List.mem_map] at hs
  obtain ⟨c, hc, rfl⟩ := hs
  exact (h.goesOn_of_closed hdata (List.mem_of_mem_take hc)).1

/-- As long as the server has not raised, the loop went on after every chunk. -/
theorem State.Recorded.next_of_not_raised {x : State ω} (h : x.Recorded srv sessions)
    (hdata : ∀ addr data, data ≠ [] → (srv.turn addr data).outcome ≠ .ok .leave)
    (hx : ¬x.Raised) {c : Conn ω} (hc : c ∈ x.conns) {b : Bytes} (hb : b ∈ c.received) :
    (srv.turn c.addr b).outcome = .ok .next := by
  have hrec := h.conns c hc
  rcases List.mem_append.1 hc with hclosed | hphase
  · obtain ⟨l, more, hchunks, hl⟩ := hrec.exists_chunks
    rw [hl] at hb
    obtain ⟨chunk, hchunk, rfl⟩ := List.mem_map.1 hb
    exact (h.goesOn_of_closed hdata hclosed).1 chunk (hchunks ▸ List.mem_append_left more hchunk)
  · cases hp : x.phase with
    | accepting => simp [hp, Phase.conn] at hphase
    | serving c' =>
      obtain rfl : c = c' := by simpa [hp, Phase.conn] using hphase
      exact hrec.next_of_serving (h.serving c hp) hb
    | raised c' e => exact absurd ⟨c', e, hp⟩ hx

/-- A server that is left at the close of the peer only outlives the sessions
    in all of which the loop goes on. -/
theorem survives_iff (heof : ∀ addr, (srv.turn addr []).outcome = .ok .leave)
    (hdata : ∀ addr data, data ≠ [] → (srv.turn addr data).outcome ≠ .ok .leave) :
    srv.Survives sessions ↔ ∀ s ∈ sessions, srv.GoesOn s := by
  constructor
  · intro h s hs
    obtain ⟨closed, hr, hclosed⟩ := h.back sessions [] (List.append_nil _).symm
    rw [← hclosed, List.mem_map] at hs
    obtain ⟨c, hc, rfl⟩ := hs
    exact ((recorded_of_reachable hr).goesOn_of_closed hdata hc).1
  · intro h
    refine ⟨?_, fun before rest hsessions => ?_⟩
    · rintro x hx ⟨c, e, hphase⟩
      have hrec := recorded_of_reachable hx
      obtain ⟨t, hfinal, herror⟩ := hrec.raised c e hphase
      have hmem : c ∈ x.conns := List.mem_of_getElem? (State.conns_of_raised hphase)
      have hc := hrec.conns c hmem
      have ht : t ∈ c.allTurns := by simp [Conn.allTurns, hfinal]
      have hturn := hc.turn t ht
      -- The iteration that raised was on no bytes, or on a chunk of a session.
      by_cases hne : t.data = []
      · rw [hne] at hturn
        rw [hturn, heof] at herror
        cases herror
      · have hsession : c.session ∈ sessions := by
          rw [← hrec.sessions]
          exact List.mem_append_left _ (List.mem_map_of_mem hmem)
        have hreceived : t.data ∈ c.received :=
          List.mem_filter.2 ⟨List.mem_map_of_mem ht, by simpa using hne⟩
        obtain ⟨l, more, hchunks, hl⟩ := hc.exists_chunks
        rw [hl] at hreceived
        obtain ⟨chunk, hchunk, hd⟩ := List.mem_map.1 hreceived
        have hnext := h c.session hsession chunk (hchunks ▸ List.mem_append_left more hchunk)
        rw [hd] at hnext
        rw [hturn] at herror
        exact absurd (hnext.symm.trans herror) (by simp)
    · exact reachable_accepting hsessions
        (fun s hs => h s (hsessions ▸ List.mem_append_left _ hs)) heof

/-- A server that is not left at the close of the peer closes no connection. -/
theorem State.Recorded.closed_eq_nil {x : State ω} (h : x.Recorded srv sessions)
    (heof : ∀ addr, (srv.turn addr []).outcome ≠ .ok .leave)
    (hdata : ∀ addr data, data ≠ [] → (srv.turn addr data).outcome ≠ .ok .leave) :
    x.closed = [] := by
  rw [List.eq_nil_iff_forall_not_mem]
  exact fun c hc => heof _ (h.goesOn_of_closed hdata hc).2

/-- Such a server outlives no session. -/
theorem not_survives (heof : ∀ addr, (srv.turn addr []).outcome ≠ .ok .leave)
    (hdata : ∀ addr data, data ≠ [] → (srv.turn addr data).outcome ≠ .ok .leave)
    (hsessions : sessions ≠ []) : ¬srv.Survives sessions := by
  intro h
  obtain ⟨closed, hr, hclosed⟩ := h.back sessions [] (List.append_nil _).symm
  have hnil : closed = [] := (recorded_of_reachable hr).closed_eq_nil heof hdata
  rw [hnil] at hclosed
  exact hsessions hclosed.symm

end LogService
