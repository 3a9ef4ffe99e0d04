import LogService.System

/-!
# What the system can still do

With clients that wait, the server is never stuck: it can receive what is on its
way, the client being served can write its next line, and when it has come to its
last line `q`, the server can go back to `accept`, for the next client. So
whatever has happened so far, all lines can still be delivered, as long as the
server goes on after their messages (`reaches_received`).
-/

namespace LogService

open Utf8 (Bytes)
open Client (text Typed Sends)

namespace System

variable {α ω : Type} {enc : α → Bytes} {of : Bytes → α} {texts : Set Bytes} {srv : Server ω}
  {body : Client → Option Client} {inputs : List (Address × Bytes)}

variable {ts : List Terminal} {rest : List Session} {closed : List (Conn ω)} {c : Conn ω}
  {t : Terminal}

/-- The chunks received are the messages of the first lines: all of those
    written, but for the last one perhaps. -/
theorem exists_chunks_eq (henc : ∀ a, enc a ≠ [])
    (h : Sends body (fun b => enc (of b)) texts)
    (hinputs : ∀ p ∈ inputs, ∀ j, text p.2 j ∈ texts)
    {s : System ω} (hs : (paced srv body inputs).Reachable s) {i : ℕ} {x : Session}
    (ht : s.terminals[i]? = some t) (hx : s.server.sessions[i]? = some x) :
    ∃ m, m ≤ t.client.written.length ∧ t.client.written.length ≤ m + 1 ∧
      x.chunks.map Chunk.data = (List.range m).map fun j => enc (of (text t.input j)) := by
  obtain ⟨k, hk⟩ := exists_within s
  obtain ⟨as, last, hwritten, hlast, hchunks⟩ :=
    Network.chunks_eq henc (reachable_paced h hinputs hs hk) (getElem?_link ht) hx
  have hlength : t.client.written.length = as.length + last.length := by
    have hlength := congrArg List.length hwritten
    rwa [Terminal.link, List.length_map, List.length_range, List.length_append] at hlength
  refine ⟨as.length, by omega, by omega, ?_⟩
  -- The texts received are the first of those written, which are the first lines.
  have has : as = (List.range as.length).map fun j => of (text t.input j) := by
    have htake := congrArg (List.take as.length) hwritten
    rw [List.take_left, Terminal.link, ← List.map_take, List.take_range,
      min_eq_left (by omega)] at htake
    exact htake.symm
  rw [hchunks]
  conv_lhs => rw [has]
  rw [List.map_map]
  rfl

/-- Of a connection that has been closed, these are all the lines before `q`. -/
theorem closed_chunks_eq (henc : ∀ a, enc a ≠ [])
    (h : Sends body (fun b => enc (of b)) texts)
    (hinputs : ∀ p ∈ inputs, ∀ j, text p.2 j ∈ texts)
    (hdata : ∀ addr data, data ≠ [] → (srv.turn addr data).outcome ≠ .ok .leave)
    {s : System ω} (hs : (paced srv body inputs).Reachable s) {i : ℕ}
    (hc : s.server.closed[i]? = some c) :
    ∃ p before, inputs[i]? = some p ∧ Go.lines p.2 = before ++ [quit] ∧
      c.session.chunks.map Chunk.data = before.map fun b => enc (of b) := by
  obtain ⟨t, ht, hnone, hall⟩ := closed_drained hdata hs.of_restrict hc
  obtain ⟨m, hm, -, hchunks⟩ := exists_chunks_eq henc h hinputs hs ht
    (State.getElem?_sessions (State.conns_of_closed hc))
  have hmem : t ∈ s.terminals := List.mem_of_getElem? ht
  have htyped := typed h hinputs hs.of_restrict t hmem
  have hquit := h.eq_quit_of_body_eq_none
    (htyped.textInput ▸ text_mem hinputs hs.of_restrict hmem _) hnone
  have hlines := htyped.lines_eq_range (fun b => henc (of b)) hquit hm
    (by rw [← hchunks, ← List.flatMap_def, hall])
  refine ⟨_, _, getElem?_inputs hs.of_restrict ht, hlines, ?_⟩
  rw [hchunks, List.map_map]
  rfl

/-! ## The next step -/

/-- With nothing on its way, the client served can go through its loop. -/
theorem step_client (h : Sends body (fun b => enc (of b)) texts)
    (hp : Paced ⟨ts, ⟨rest, closed, .serving c⟩⟩) (ht : ts[closed.length]? = some t)
    (htext : t.client.textInput ∈ texts)
    (hall : c.session.chunks.flatMap Chunk.data = t.client.written.flatten) {c' : Client}
    (hbody : body t.client = some c') :
    (paced srv body inputs).Step ⟨ts, ⟨rest, closed, .serving c⟩⟩
      ⟨ts.set closed.length { t with client := c' }, ⟨rest, closed, .serving c⟩⟩ := by
  refine ⟨.client ht hbody, fun i t' x ht' hx => ?_⟩
  by_cases hi : closed.length = i
  · subst hi
    rw [List.getElem?_set_self (List.getElem?_eq_some_iff.1 ht).1] at ht'
    obtain rfl := Option.some.inj ht'
    obtain rfl := Option.some.inj
      ((State.getElem?_sessions (Network.getElem?_conns rest closed c)).symm.trans hx)
    obtain ⟨-, rfl⟩ := h.of_body_eq_some htext hbody
    exact ⟨_, _, rfl, le_rfl, hall⟩
  · rw [List.getElem?_set_ne hi] at ht'
    exact hp i t' x ht' hx

/-- The message on its way can be received, if the server goes on after it. -/
theorem step_recv (hp : Paced ⟨ts, ⟨rest, closed, .serving c⟩⟩)
    (ht : ts[closed.length]? = some t) {ms : List Bytes} {chunk : Chunk}
    (hwritten : t.client.written = ms ++ [chunk.data])
    (hchunks : c.session.chunks.flatMap Chunk.data = ms.flatten)
    (hnext : (srv.turn c.addr chunk.data).outcome = .ok .next) :
    ∃ turns, (paced srv body inputs).Step ⟨ts, ⟨rest, closed, .serving c⟩⟩
      ⟨ts, ⟨rest, closed, .serving { c.feed chunk with arriving := [], turns := turns }⟩⟩ := by
  have hall : (c.session.chunks ++ [chunk]).flatMap Chunk.data = t.client.written.flatten := by
    rw [List.flatMap_append, hchunks, hwritten, List.flatten_append, List.flatMap_singleton,
      List.flatten_singleton]
  have hst : srv.Step ⟨rest, closed, .serving (c.feed chunk)⟩ _ := .next hnext
  refine ⟨_, .recv chunk ht (hall ▸ List.prefix_rfl) hst, fun i t' x ht' hx => ?_⟩
  replace hx := (congrArg (fun xs => xs[i]?) (Network.sessions_feed hst)).symm.trans hx
  by_cases hi : closed.length = i
  · subst hi
    have hc := State.getElem?_sessions (Network.getElem?_conns rest closed c)
    obtain rfl := Option.some.inj
      ((List.getElem?_set_self (List.getElem?_eq_some_iff.1 hc).1).symm.trans hx)
    obtain rfl := Option.some.inj (ht.symm.trans ht')
    exact ⟨_, [], (List.append_nil _).symm, Nat.zero_le _, hall⟩
  · exact hp i t' x ht' ((List.getElem?_set_ne hi).symm.trans hx)

/-- Steps of the server that leave the sessions as they are leave the clients
    waiting. -/
theorem Paced.of_sessions_eq {x y : State ω} (hp : Paced ⟨ts, x⟩) (hxy : y.sessions = x.sessions) :
    Paced ⟨ts, y⟩ :=
  fun i t x ht hx => hp i t x ht (hxy ▸ hx)

/-- When the client has left its loop and nothing is on its way, the server can go
    back to `accept`, if it leaves its loop then. -/
theorem step_leave (hp : Paced ⟨ts, ⟨rest, closed, .serving c⟩⟩)
    (ht : ts[closed.length]? = some t) (hbody : body t.client = none)
    (hall : c.session.chunks.flatMap Chunk.data = t.client.written.flatten)
    (harr : c.arriving = []) (hleave : (srv.turn c.addr []).outcome = .ok .leave) :
    ∃ c', (paced srv body inputs).Step ⟨ts, ⟨rest, closed, .serving c⟩⟩
      ⟨ts, ⟨rest, closed ++ [c'], .accepting⟩⟩ := by
  have hturn : (srv.nextTurn c).outcome = .ok .leave := by
    rwa [Server.nextTurn, Server.recv, harr]
  have hst : srv.Step ⟨rest, closed, .serving c⟩ _ := .leave hturn
  exact ⟨_, .eof ht hbody hall hst, hp.of_sessions_eq hst.sessions_eq⟩

/-- The next client's connection can be accepted. -/
theorem step_accept {x : Session} (hp : Paced ⟨ts, ⟨x :: rest, closed, .accepting⟩⟩) :
    (paced srv body inputs).Step ⟨ts, ⟨x :: rest, closed, .accepting⟩⟩
      ⟨ts, ⟨rest, closed, .serving (Server.accept x)⟩⟩ := by
  have hst : srv.Step ⟨x :: rest, closed, .accepting⟩ _ := .accept
  exact ⟨.accept rfl hst, hp.of_sessions_eq hst.sessions_eq⟩

/-- At the start, nothing is on its way. -/
theorem paced_of_init {s : System ω} (hs : (lts srv body inputs).Init s) : Paced s := by
  cases hs
  intro i t x ht hx
  simp only [State.sessions, State.conns, Phase.conn, Option.toList_none, List.append_nil,
    List.map_nil, List.nil_append, List.getElem?_map, Option.map_eq_some_iff] at ht hx
  obtain ⟨p, -, rfl⟩ := ht
  obtain ⟨p', -, rfl⟩ := hx
  exact ⟨[], [], rfl, Nat.zero_le _, rfl⟩

/-- The first client's connection can be accepted before anything is written. -/
theorem reachable_serving (srv : Server ω) (body : Client → Option Client) (p : Address × Bytes)
    (others : List (Address × Bytes)) :
    ∃ ts rest, (paced srv body (p :: others)).Reachable
        ⟨ts, ⟨rest, [], .serving (Server.accept ⟨p.1, []⟩)⟩⟩ ∧
      ts[0]? = some ⟨p.1, p.2, Client.start p.2⟩ := by
  have hinit : (lts srv body (p :: others)).Init
      ⟨(p :: others).map fun p => ⟨p.1, p.2, Client.start p.2⟩,
        ⟨⟨p.1, []⟩ :: others.map fun p => ⟨p.1, []⟩, [], .accepting⟩⟩ := rfl
  have hpaced := paced_of_init hinit
  exact ⟨_, _, .step (.init ⟨hinit, hpaced⟩) (step_accept hpaced), rfl⟩

/-- A terminal at which the lines `a` and `b` are typed, and then `q`, without a
    newline. -/
def abq : Address × Bytes := (⟨"127.0.0.1", 50000⟩, [0x61, 0x0a, 0x62, 0x0a, 0x71])

/-- `a` and `b` are the lines before the `q`. -/
theorem eq_of_lines_abq {before : List Bytes} (hlines : Go.lines abq.2 = before ++ [quit]) :
    before = [[0x61, 0x0a], [0x62, 0x0a]] :=
  List.append_left_injective [quit] (hlines.symm.trans rfl :)

/-! ## All the lines -/

variable (h : Sends body (fun b => enc (of b)) texts)
  (hinputs : ∀ p ∈ inputs, ∀ j, text p.2 j ∈ texts)

include h hinputs in
/-- When not all of the first `k` lines have been received, the next one is
    written, or can be. -/
theorem reaches_written
    (hs : (paced srv body inputs).Reachable ⟨ts, ⟨rest, closed, .serving c⟩⟩)
    (ht : ts[closed.length]? = some t) {m : ℕ} (hm : m ≤ t.client.written.length)
    (hm' : t.client.written.length ≤ m + 1)
    (hchunks : c.session.chunks.map Chunk.data =
      (List.range m).map fun j => enc (of (text t.input j)))
    (hquit : text t.input m ≠ quit) :
    ∃ ts' t', (paced srv body inputs).Reaches ⟨ts, ⟨rest, closed, .serving c⟩⟩
        ⟨ts', ⟨rest, closed, .serving c⟩⟩ ∧
      ts'[closed.length]? = some t' ∧ t'.addr = t.addr ∧ t'.input = t.input ∧
      t'.client.written.length = m + 1 := by
  have hmem : t ∈ ts := List.mem_of_getElem? ht
  have htyped := typed h hinputs hs.of_restrict t hmem
  rcases Nat.eq_or_lt_of_le hm with rfl | hlt
  · have htexts := text_mem hinputs hs.of_restrict hmem t.client.written.length
    rw [← htyped.textInput] at hquit htexts
    have hbody := h.next t.client hquit htexts
    have hall : c.session.chunks.flatMap Chunk.data = t.client.written.flatten := by
      rw [List.flatMap_def, hchunks, ← htyped.written]
    refine ⟨_, _, .single (step_client h hs.mem_of_restrict ht htexts hall hbody),
      List.getElem?_set_self (List.getElem?_eq_some_iff.1 ht).1, rfl, rfl, List.length_append⟩
  · exact ⟨ts, t, .refl, ht, rfl, rfl, by omega⟩

include h hinputs in
/-- Whatever has happened so far, the first lines can all be received, if the
    server goes on after their messages and these fit into a chunk. -/
theorem reaches_received (henc : ∀ a, enc a ≠ []) {k : ℕ}
    (hs : (paced srv body inputs).Reachable ⟨ts, ⟨rest, closed, .serving c⟩⟩)
    (ht : ts[closed.length]? = some t) (hk : t.client.written.length ≤ k)
    (hlines : ∀ j < k, text t.input j ≠ quit ∧ (enc (of (text t.input j))).length ≤ recvSize ∧
      (srv.turn t.addr (enc (of (text t.input j)))).outcome = .ok .next) :
    ∃ ts' c' t', (paced srv body inputs).Reaches ⟨ts, ⟨rest, closed, .serving c⟩⟩
        ⟨ts', ⟨rest, closed, .serving c'⟩⟩ ∧
      ts'[closed.length]? = some t' ∧ t'.addr = t.addr ∧ t'.input = t.input ∧
      t'.client.written.length = k ∧
      c'.session.chunks.map Chunk.data =
        (List.range k).map fun j => enc (of (text t.input j)) := by
  obtain ⟨m, hm, hm', hchunks⟩ := exists_chunks_eq henc h hinputs hs ht
    (State.getElem?_sessions (Network.getElem?_conns rest closed c))
  induction hd : k - m generalizing ts c t m with
  | zero =>
    obtain rfl : m = k := by omega
    exact ⟨ts, c, t, .refl, ht, rfl, rfl, by omega, hchunks⟩
  | succ d ih =>
    obtain ⟨hquit, hsize, hnext⟩ := hlines m (by omega)
    obtain ⟨ts₁, t₁, hr₁, ht₁, haddr₁, hinput₁, hlength₁⟩ :=
      reaches_written h hinputs hs ht hm hm' hchunks hquit
    have hs₁ := hs.reaches hr₁
    have htyped₁ := typed h hinputs hs₁.of_restrict t₁ (List.mem_of_getElem? ht₁)
    -- What is on its way is the message of the line `m`.
    obtain ⟨chunk, hdata⟩ : ∃ chunk : Chunk, chunk.data = enc (of (text t.input m)) :=
      ⟨⟨_, henc _, hsize⟩, rfl⟩
    rw [← hdata] at hnext
    have hwritten₁ : t₁.client.written = c.session.chunks.map Chunk.data ++ [chunk.data] := by
      rw [htyped₁.written, hlength₁, hinput₁, List.range_succ, List.map_append, hchunks, hdata,
        List.map_singleton]
    have haddr : c.addr = t.addr := by
      obtain ⟨t', ht', haddr, -⟩ := exists_terminal h hinputs hs.of_restrict
        (Network.getElem?_conns rest closed c)
      rw [haddr, Option.some.inj (ht.symm.trans ht')]
    obtain ⟨turns, hst⟩ := step_recv hs₁.mem_of_restrict ht₁ hwritten₁ List.flatMap_def
      (haddr ▸ hnext)
    have hchunks₂ : (c.session.chunks ++ [chunk]).map Chunk.data =
        (List.range (m + 1)).map fun j => enc (of (text t₁.input j)) := by
      rw [List.map_append, hchunks, List.range_succ, List.map_append, hinput₁, List.map_singleton,
        List.map_singleton, hdata]
    obtain ⟨ts', c', t', hr, ht', haddr', hinput', hlength', hchunks'⟩ :=
      ih (hs₁.step hst) ht₁ (by omega) (by rwa [haddr₁, hinput₁]) (m + 1) (by omega) (by omega)
        hchunks₂ (by omega)
    rw [hinput₁] at hinput' hchunks'
    exact ⟨ts', c', t', (hr₁.tail hst).trans hr, ht', haddr'.trans haddr₁, hinput', hlength',
      hchunks'⟩

/-- The input of a client whose lines can all be received: it ends with the line
    `q`, and the server goes on after the messages of the lines before, each of
    which fits into a chunk. -/
def Receivable (srv : Server ω) (enc : α → Bytes) (of : Bytes → α) (p : Address × Bytes) : Prop :=
  ∃ before, Go.lines p.2 = before ++ [quit] ∧ ∀ b ∈ before,
    (enc (of b)).length ≤ recvSize ∧ (srv.turn p.1 (enc (of b))).outcome = .ok .next

/-- Every client has its session. -/
theorem sessions_length {s : System ω} (hs : (lts srv body inputs).Reachable s) :
    s.server.sessions.length = inputs.length := by
  induction hs with
  | init h =>
    cases h
    simp [State.sessions, State.conns, Phase.conn]
  | step _ hst ih =>
    cases hst with
    | client _ _ => exact ih
    | accept _ hst | eof _ _ _ hst => exact hst.sessions_eq ▸ ih
    | recv chunk _ _ hst =>
      rw [Network.sessions_feed hst, List.length_set]
      exact ih

include h hinputs in
/-- Then its client can get to the `q`, with all it has written received. -/
theorem reaches_drained (henc : ∀ a, enc a ≠ [])
    (hs : (paced srv body inputs).Reachable ⟨ts, ⟨rest, closed, .serving c⟩⟩)
    (ht : ts[closed.length]? = some t) (hreceivable : Receivable srv enc of (t.addr, t.input)) :
    ∃ ts' c' t', (paced srv body inputs).Reaches ⟨ts, ⟨rest, closed, .serving c⟩⟩
        ⟨ts', ⟨rest, closed, .serving c'⟩⟩ ∧
      ts'[closed.length]? = some t' ∧ body t'.client = none ∧
      c'.session.chunks.flatMap Chunk.data = t'.client.written.flatten ∧ c'.arriving = [] := by
  obtain ⟨before, hlines, hbefore⟩ := hreceivable
  have hquit := (Client.eq_nil_of_lines_eq hlines).2
  obtain ⟨htext, hend⟩ := Client.text_eq hlines
  have hk := (typed h hinputs hs.of_restrict t (List.mem_of_getElem? ht)).length_le hlines
  obtain ⟨ts', c', t', hr, ht', haddr', hinput', hlength', hchunks'⟩ :=
    reaches_received h hinputs henc hs ht hk fun j hj => by
      rw [htext j hj]
      have hmem : before[j] ∈ before := List.getElem_mem hj
      exact ⟨fun heq => hquit (heq ▸ hmem), hbefore _ hmem⟩
  have hs' := hs.reaches hr
  have htyped' := typed h hinputs hs'.of_restrict t' (List.mem_of_getElem? ht')
  have hbody : body t'.client = none := by
    refine h.leave _ ?_
    rw [htyped'.textInput, hlength', hinput', hend]
  obtain ⟨-, -, -, -, harr, -⟩ := exists_terminal h hinputs hs'.of_restrict
    (Network.getElem?_conns rest closed c')
  have hall : c'.session.chunks.flatMap Chunk.data = t'.client.written.flatten := by
    rw [List.flatMap_def, hchunks', htyped'.written, hlength', hinput']
  exact ⟨ts', c', t', hr, ht', hbody, hall, harr⟩

include h hinputs in
/-- And its connection can be served to the end. -/
theorem reaches_closed (henc : ∀ a, enc a ≠ [])
    (heof : ∀ addr, (srv.turn addr []).outcome = .ok .leave)
    (hreceivable : ∀ p ∈ inputs, Receivable srv enc of p)
    (hs : (paced srv body inputs).Reachable ⟨ts, ⟨rest, closed, .serving c⟩⟩) :
    ∃ ts' c', (paced srv body inputs).Reaches ⟨ts, ⟨rest, closed, .serving c⟩⟩
      ⟨ts', ⟨rest, closed ++ [c'], .accepting⟩⟩ := by
  obtain ⟨t, ht, -⟩ := exists_terminal h hinputs hs.of_restrict
    (Network.getElem?_conns rest closed c)
  have hmem := List.mem_of_getElem? (getElem?_inputs hs.of_restrict ht)
  obtain ⟨ts', c', t', hr, ht', hbody, hall, harr⟩ :=
    reaches_drained h hinputs henc hs ht (hreceivable _ hmem)
  obtain ⟨c'', hst⟩ := step_leave (hs.reaches hr).mem_of_restrict ht' hbody hall harr (heof _)
  exact ⟨ts', c'', hr.tail hst⟩

include h hinputs in
/-- And so can all that are still to come, one after another. -/
theorem reaches_accepting (henc : ∀ a, enc a ≠ [])
    (heof : ∀ addr, (srv.turn addr []).outcome = .ok .leave)
    (hreceivable : ∀ p ∈ inputs, Receivable srv enc of p)
    (hs : (paced srv body inputs).Reachable ⟨ts, ⟨rest, closed, .accepting⟩⟩) :
    ∃ ts' closed', (paced srv body inputs).Reaches ⟨ts, ⟨rest, closed, .accepting⟩⟩
      ⟨ts', ⟨[], closed', .accepting⟩⟩ := by
  induction rest generalizing ts closed with
  | nil => exact ⟨ts, closed, .refl⟩
  | cons x rest ih =>
    have hst : (paced srv body inputs).Step _ _ := step_accept hs.mem_of_restrict
    obtain ⟨ts', c', hr⟩ := reaches_closed h hinputs henc heof hreceivable (hs.step hst)
    obtain ⟨ts'', closed', hr'⟩ := ih ((hs.step hst).reaches hr)
    exact ⟨ts'', closed', (Relation.ReflTransGen.head hst hr).trans hr'⟩

/-! ## Without waiting -/

include h hinputs in
/-- A client can write its next line at any time, if this is not `q`. -/
theorem exists_step_client {s : System ω} (hs : (lts srv body inputs).Reachable s) {i : ℕ}
    (ht : s.terminals[i]? = some t) (hquit : text t.input t.client.written.length ≠ quit) :
    ∃ t', (lts srv body inputs).Step s ⟨s.terminals.set i t', s.server⟩ ∧
      t'.input = t.input ∧ t'.client.written.length = t.client.written.length + 1 := by
  have hmem : t ∈ s.terminals := List.mem_of_getElem? ht
  have htexts := text_mem hinputs hs hmem t.client.written.length
  rw [← (typed h hinputs hs t hmem).textInput] at hquit htexts
  exact ⟨_, .client ht (h.next t.client hquit htexts), rfl, List.length_append⟩

include h hinputs in
/-- And so more of them, up to a line `q`. -/
theorem reaches_lines {s : System ω} (hs : (lts srv body inputs).Reachable s) {i k : ℕ}
    (ht : s.terminals[i]? = some t) (hk : t.client.written.length ≤ k)
    (hlines : ∀ j < k, text t.input j ≠ quit) :
    ∃ ts' t', (lts srv body inputs).Reaches s ⟨ts', s.server⟩ ∧ ts'[i]? = some t' ∧
      t'.input = t.input ∧ t'.client.written.length = k := by
  induction hd : k - t.client.written.length generalizing s t with
  | zero => exact ⟨s.terminals, t, .refl, ht, rfl, by omega⟩
  | succ d ih =>
    obtain ⟨t₁, hst, hinput₁, hlength₁⟩ :=
      exists_step_client h hinputs hs ht (hlines _ (by omega))
    have ht₁ : (s.terminals.set i t₁)[i]? = some t₁ :=
      List.getElem?_set_self (List.getElem?_eq_some_iff.1 ht).1
    obtain ⟨ts', t', hr, ht', hinput, hlength⟩ :=
      ih (hs.step hst) ht₁ (by omega) (by rwa [hinput₁]) (by omega)
    exact ⟨ts', t', .head hst hr, ht', hinput.trans hinput₁, hlength⟩

include h hinputs in
/-- When all that has been written has been received, the client can write two more
    lines before the server receives anything. -/
theorem reaches_two_lines
    (hs : (lts srv body inputs).Reachable ⟨ts, ⟨rest, closed, .serving c⟩⟩)
    (ht : ts[closed.length]? = some t)
    (hall : c.session.chunks.flatMap Chunk.data = t.client.written.flatten)
    (hquit : text t.input t.client.written.length ≠ quit)
    (hquit' : text t.input (t.client.written.length + 1) ≠ quit) :
    ∃ ts' t', (lts srv body inputs).Reaches ⟨ts, ⟨rest, closed, .serving c⟩⟩
        ⟨ts', ⟨rest, closed, .serving c⟩⟩ ∧
      ts'[closed.length]? = some t' ∧ t'.input = t.input ∧
      t'.client.written.flatten = c.session.chunks.flatMap Chunk.data ++
        (enc (of (text t.input t.client.written.length)) ++
          enc (of (text t.input (t.client.written.length + 1)))) := by
  have htyped := typed h hinputs hs t (List.mem_of_getElem? ht)
  have hlines : ∀ j < t.client.written.length + 2, text t.input j ≠ quit := by
    intro j hj
    rcases Nat.lt_succ_iff_lt_or_eq.1 hj with hj | rfl
    · rcases Nat.lt_succ_iff_lt_or_eq.1 hj with hj | rfl
      · exact htyped.ne_quit j hj
      · exact hquit
    · exact hquit'
  obtain ⟨ts', t', hr, ht', hinput, hlength⟩ :=
    reaches_lines h hinputs hs ht (by omega) hlines
  have htyped' := typed h hinputs (hs.reaches hr) t' (List.mem_of_getElem? ht')
  refine ⟨ts', t', hr, ht', hinput, ?_⟩
  rw [htyped'.written, hlength, hinput, List.range_succ, List.range_succ, List.map_append,
    List.map_append, ← htyped.written, hall]
  simp

/-- The server can receive any bytes that have been written, and goes on after
    them if its loop does. -/
theorem exists_step_recv (hfinal : c.final = none) (ht : ts[closed.length]? = some t)
    {chunk : Chunk}
    (hwritten : (c.session.chunks ++ [chunk]).flatMap Chunk.data <+: t.client.written.flatten)
    (hnext : (srv.turn c.addr chunk.data).outcome = .ok .next) :
    ∃ c', (lts srv body inputs).Step ⟨ts, ⟨rest, closed, .serving c⟩⟩
        ⟨ts, ⟨rest, closed, .serving c'⟩⟩ ∧
      c'.addr = c.addr ∧ c'.session.chunks = c.session.chunks ++ [chunk] ∧ c'.final = none ∧
      c'.actions = c.actions ++ (srv.turn c.addr chunk.data).actions := by
  have hst : srv.Step ⟨rest, closed, .serving (c.feed chunk)⟩ _ := .next hnext
  refine ⟨_, .recv chunk ht hwritten hst, rfl, rfl, hfinal, ?_⟩
  change ((c.turns ++ [srv.turn c.addr chunk.data]) ++ c.final.toList).flatMap Turn.actions = _
  rw [Conn.actions, Conn.allTurns, hfinal, Option.toList_none, List.append_nil, List.append_nil,
    List.flatMap_append, List.flatMap_singleton]

/-- Or it raises, if its loop does. -/
theorem exists_step_raise (hfinal : c.final = none) (ht : ts[closed.length]? = some t)
    {chunk : Chunk}
    (hwritten : (c.session.chunks ++ [chunk]).flatMap Chunk.data <+: t.client.written.flatten)
    {e : Python.Exception} (hraise : (srv.turn c.addr chunk.data).outcome = .error e) :
    ∃ c', (lts srv body inputs).Step ⟨ts, ⟨rest, closed, .serving c⟩⟩
        ⟨ts, ⟨rest, closed, .raised c' e⟩⟩ ∧
      c'.session.chunks = c.session.chunks ++ [chunk] ∧
      c'.actions = c.actions ++ (srv.turn c.addr chunk.data).actions := by
  have hst : srv.Step ⟨rest, closed, .serving (c.feed chunk)⟩ _ := .raise hraise
  refine ⟨_, .recv chunk ht hwritten hst, rfl, ?_⟩
  change (c.turns ++ [srv.turn c.addr chunk.data]).flatMap Turn.actions = _
  rw [Conn.actions, Conn.allTurns, hfinal, Option.toList_none, List.append_nil,
    List.flatMap_append, List.flatMap_singleton]

include h hinputs in
/-- As long as a connection is served, its loop has not been left. -/
theorem final_eq_none
    (hs : (lts srv body inputs).Reachable ⟨ts, ⟨rest, closed, .serving c⟩⟩) : c.final = none := by
  obtain ⟨k, hk⟩ := exists_within (⟨ts, rest, closed, .serving c⟩ : System ω)
  exact Network.final_eq_none (reachable_network h hinputs hs hk) rfl

end System

end LogService
