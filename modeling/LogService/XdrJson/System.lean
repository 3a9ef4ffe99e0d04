import LogService.System.Progress
import LogService.XdrJson.Delivery

/-!
# The JSON service, from the terminals to the table

What becomes of the texts that clients write, and of the lines typed, whatever
the order in which they are written and the server receives them.

* `network_rows_eq`, `typed_rows_eq`: the rows are the first texts, or lines, each
  once and in order, and only as long as the messages fit into a chunk;
* `network_closed_eq_nil`: the server never gets to a second client;
* `typed_paced_rows_eq`: with a client that waits, all lines written are inserted,
  but for the last one;
* `reaches_rows`: and all lines still can be;
* `reaches_empty_rows`: and empty rows after them, without end, if the last line is
  not `q`;
* `typed_raised`, `typed_paced_raised`: what has been received and inserted when the
  server has raised;
* `reaches_raised`: it can raise on the next two lines of a client that does not
  wait.
-/

namespace LogService.XdrJson

open Utf8 (Bytes)
open Client (text)

variable {v : Go.Version} {mydb : MySql} {clients : List (Address × List Bytes)}
  {n : Network Bytes Action} {inputs : List (Address × Bytes)} {i : ℕ} {c : Conn Action}

/-! ## In the network -/

/-- No connection is ever closed, for the server to accept another one. -/
theorem network_closed_eq_nil (hn : (Network.lts (server mydb) (message v) clients).Reachable n) :
    n.server.closed = [] := by
  obtain ⟨ds, x, -, hx, hcompletes⟩ := Network.exists_server_run hn
  have hclosed : x.closed = [] := by
    refine (recorded_of_reachable hx).closed_eq_nil (fun addr => ?_)
      fun addr data _ => turn_outcome_ne_leave addr data
    rw [turn_nil]
    rintro ⟨⟩
  have hforall := hcompletes.closed
  rw [hclosed, List.forall₂_nil_right_iff] at hforall
  exact hforall

/-- The client writes the message of every line. -/
theorem sends_message : Client.Sends (clientBody v) (fun b => message v (id b)) Set.univ :=
  sends_clientBody v

theorem text_mem_univ : ∀ p ∈ inputs, ∀ j, text p.2 j ∈ (Set.univ : Set Bytes) :=
  fun _ _ _ => Set.mem_univ _

/-- No connection is ever closed. -/
theorem closed_eq_nil {s : System Action}
    (hs : (System.lts (server mydb) (clientBody v) inputs).Reachable s) : s.server.closed = [] := by
  obtain ⟨k, hk⟩ := System.exists_within s
  exact network_closed_eq_nil (System.reachable_network sends_message text_mem_univ hs hk)

/-- Chunks that are the messages of the first lines: these lines are inserted. -/
theorem rows_eq_of_chunks_eq {s : System Action}
    (hs : (System.lts (server mydb) (clientBody v) inputs).Reachable s)
    (hc : s.server.conns[i]? = some c) {t : Terminal} (ht : s.terminals[i]? = some t) {k : ℕ}
    (hchunks : c.session.chunks.map Chunk.data =
      (List.range k).map fun j => message v (id (text t.input j))) :
    rows c.actions = (List.range k).map fun j => row t.addr (text t.input j) := by
  obtain ⟨t', ht', haddr, hrecord, -, hreceived⟩ :=
    System.exists_terminal sends_message text_mem_univ hs hc
  obtain rfl := Option.some.inj (ht'.symm.trans ht)
  have hmap : (List.range k).map (fun j => message v (id (text t'.input j))) =
      ((List.range k).map (text t'.input)).map (message v) := by
    rw [List.map_map]
    rfl
  rw [hrecord.actions_eq (by rw [turn_nil]), hreceived, hchunks, hmap, rows_flatMap, haddr,
    List.map_map]
  rfl

/-- The lines can be inserted while a connection is served. -/
theorem reaches_serving_rows {ts : List Terminal} {rest : List Session}
    {closed : List (Conn Action)}
    (hs : (System.paced (server mydb) (clientBody v) inputs).Reachable
      ⟨ts, ⟨rest, closed, .serving c⟩⟩)
    {t : Terminal} (ht : ts[closed.length]? = some t) {k : ℕ} (hk : t.client.written.length ≤ k)
    (hlines : ∀ j < k, text t.input j ≠ quit ∧ (message v (text t.input j)).length ≤ recvSize) :
    ∃ ts' c', (System.paced (server mydb) (clientBody v) inputs).Reaches
        ⟨ts, ⟨rest, closed, .serving c⟩⟩ ⟨ts', ⟨rest, closed, .serving c'⟩⟩ ∧
      rows c'.actions = (List.range k).map fun j => row t.addr (text t.input j) := by
  obtain ⟨ts', c', t', hr, ht', haddr, hinput, -, hchunks⟩ :=
    System.reaches_received sends_message text_mem_univ message_ne_nil hs ht hk fun j hj =>
      ⟨(hlines j hj).1, (hlines j hj).2, turn_outcome_eq_next_iff.2 ⟨_, saved_message mydb _⟩⟩
  refine ⟨ts', c', hr, ?_⟩
  rw [← hinput] at hchunks
  rw [rows_eq_of_chunks_eq (hs.reaches hr).of_restrict (Network.getElem?_conns rest closed c') ht'
    hchunks, haddr, hinput]

theorem message_abq {j : ℕ} (hj : j < 2) :
    text System.abq.2 j ≠ quit ∧ (message Go.go121 (text System.abq.2 j)).length ≤ recvSize := by
  obtain rfl | rfl : j = 0 ∨ j = 1 := by omega
  · exact ⟨by decide, (length_message_le _).trans (by decide)⟩
  · exact ⟨by decide, (length_message_le _).trans (by decide)⟩

/-- And as long as the server has not raised, any number of lines can still be
    inserted, up to a line `q` and to one whose message does not fit into a chunk. -/
theorem reaches_rows (v : Go.Version) (mydb : MySql) (addr : Address) (input : Bytes)
    (others : List (Address × Bytes)) :
    ∀ s, (System.paced (server mydb) (clientBody v) ((addr, input) :: others)).Reachable s →
      ¬s.server.Raised → ∀ k,
        (∀ t, s.terminals[0]? = some t → t.client.written.length ≤ k) →
        (∀ j < k, text input j ≠ quit ∧ (message v (text input j)).length ≤ recvSize) →
        ∃ s' c',
          (System.paced (server mydb) (clientBody v) ((addr, input) :: others)).Reaches s s' ∧
          s'.server.phase = .serving c' ∧
          rows c'.actions = (List.range k).map fun j => row addr (text input j) := by
  rintro ⟨ts, rest, closed, phase⟩ hs hraised k hk hlines
  obtain rfl : closed = [] := closed_eq_nil hs.of_restrict
  -- The first connection is being served, or can be accepted.
  obtain ⟨rest', c, hr⟩ : ∃ rest' c,
      (System.paced (server mydb) (clientBody v) ((addr, input) :: others)).Reaches
        ⟨ts, ⟨rest, [], phase⟩⟩ ⟨ts, ⟨rest', [], .serving c⟩⟩ := by
    cases phase with
    | accepting =>
      have hlength : rest.length = others.length + 1 := System.sessions_length hs.of_restrict
      obtain ⟨x, rest, rfl⟩ := List.exists_cons_of_length_eq_add_one hlength
      exact ⟨rest, _, .single (System.step_accept hs.mem_of_restrict)⟩
    | serving c => exact ⟨rest, c, .refl⟩
    | raised c e => exact absurd ⟨c, e, rfl⟩ hraised
  have hs' := hs.reaches hr
  obtain ⟨t, ht, -⟩ := System.exists_terminal sends_message text_mem_univ hs'.of_restrict
    (Network.getElem?_conns rest' [] c)
  cases System.getElem?_inputs hs'.of_restrict ht
  obtain ⟨ts', c', hr', hrows⟩ := reaches_serving_rows hs' ht (hk t ht) hlines
  exact ⟨_, c', hr.trans hr', rfl, hrows⟩

/-- Before anything has been typed, `a` and `b` still can be. -/
theorem reaches_rows_ab : ∃ s s' c,
    (System.paced (server .strings) (clientBody Go.go121) [System.abq]).Reachable s ∧
      (System.paced (server .strings) (clientBody Go.go121) [System.abq]).Reaches s s' ∧
      s'.server.phase = .serving c ∧
      rows c.actions = [row System.abq.1 [0x61, 0x0a], row System.abq.1 [0x62, 0x0a]] := by
  obtain ⟨ts, rest, hs, ht⟩ :=
    System.reachable_serving (server .strings) (clientBody Go.go121) System.abq []
  obtain ⟨s', c', hr, hphase, hrows⟩ :=
    reaches_rows Go.go121 .strings System.abq.1 System.abq.2 [] _ hs (by rintro ⟨_, _, ⟨⟩⟩) 2
      (fun t ht' => by cases ht.symm.trans ht'; exact Nat.zero_le 2) (fun j hj => message_abq hj)
  exact ⟨_, s', c', hs, hr, hphase, hrows⟩

/-- The client does not end with its input: if the last line is not `q`, the table
    can be filled with empty rows, without end. -/
theorem reaches_empty_rows (v : Go.Version) (mydb : MySql) (addr : Address) (input : Bytes)
    (others : List (Address × Bytes)) (hquit : quit ∉ Go.lines input)
    (hsize : ∀ b ∈ Go.lines input, (message v b).length ≤ recvSize) (k : ℕ) :
    ∃ s c, (System.paced (server mydb) (clientBody v) ((addr, input) :: others)).Reachable s ∧
      s.server.phase = .serving c ∧
      rows c.actions = (Go.lines input).map (row addr) ++ List.replicate k (row addr []) := by
  have hempty : ∀ j, text input ((Go.lines input).length + j) = [] := fun j =>
    List.getD_eq_default _ _ (Nat.le_add_right _ _)
  have hlines : ∀ j, text input j ≠ quit ∧ (message v (text input j)).length ≤ recvSize := by
    intro j
    have hmem : text input j ∈ {b : Bytes | b ≠ quit ∧ (message v b).length ≤ recvSize} := by
      refine Client.text_mem (fun b hb => ?_) j
      rcases List.mem_cons.1 hb with rfl | hb
      · exact ⟨by decide, (length_message_le []).trans (by decide)⟩
      · exact ⟨fun heq => hquit (heq ▸ hb), hsize b hb⟩
    exact hmem
  obtain ⟨ts, rest, hs, ht⟩ :=
    System.reachable_serving (server mydb) (clientBody v) (addr, input) others
  obtain ⟨ts', c', hr, hrows⟩ := reaches_serving_rows hs ht (k := (Go.lines input).length + k)
    (Nat.zero_le _) fun j _ => hlines j
  refine ⟨_, c', hs.reaches hr, rfl, ?_⟩
  rw [hrows, List.range_add, List.map_append, List.map_map]
  refine congrArg₂ _ ?_ ?_
  · have hall : (List.range (Go.lines input).length).map (text input) = Go.lines input := by
      rw [Client.map_text_range le_rfl, List.take_length]
    conv_rhs => rw [← hall, List.map_map]
    rfl
  · refine List.eq_replicate_iff.2 ⟨by simp, fun r hr => ?_⟩
    obtain ⟨j, -, rfl⟩ := List.mem_map.1 hr
    exact congrArg (row addr) (hempty j)

/-- After the line `a`, with three empty rows. -/
theorem reaches_empty_rows_a : ∃ s c,
    (System.paced (server .strings) (clientBody Go.go121)
        [(System.abq.1, [0x61, 0x0a])]).Reachable s ∧
      s.server.phase = .serving c ∧
      rows c.actions = row System.abq.1 [0x61, 0x0a] :: List.replicate 3 (row System.abq.1 []) :=
  reaches_empty_rows Go.go121 .strings System.abq.1 [0x61, 0x0a] [] (by decide) (fun b hb => by
    obtain rfl : b = [0x61, 0x0a] := by simpa [Go.lines, Go.newline] using hb
    exact (length_message_le _).trans (by decide)) 3

/-! ## Exceptions -/

/-- A server that has raised did so while it served the first connection. -/
theorem conns_of_raised {s : System Action}
    (hs : (System.lts (server mydb) (clientBody v) inputs).Reachable s) {e : Python.Exception}
    (hphase : s.server.phase = .raised c e) :
    s.server.closed.length = 0 ∧ s.server.conns[0]? = some c := by
  have hzero : s.server.closed.length = 0 := by rw [closed_eq_nil hs, List.length_nil]
  exact ⟨hzero, hzero ▸ State.conns_of_raised hphase⟩

/-- The messages of two texts, in one chunk. -/
def twoMessages (v : Go.Version) (t u : Bytes)
    (h : (message v t).length + (message v u).length ≤ recvSize) : Chunk where
  data := message v t ++ message v u
  ne_nil := fun hnil => message_ne_nil t (List.append_eq_nil_iff.1 hnil).1
  length_le := by rwa [List.length_append]

/-- They are not saved. -/
theorem not_saved_two (mydb : MySql) (t u : Bytes) (log : Python.Json) :
    ¬Saved mydb (message v t ++ message v u) log := by
  intro h
  have hstream : message v t ++ message v u ++ [] = Framing.stream (message v) [t, u] := by simp
  obtain ⟨t', rest, hts, hdata⟩ := eq_message_of_saved h hstream
  obtain ⟨rfl, -⟩ := List.cons.inj hts
  exact message_ne_nil u (List.append_right_eq_self.1 hdata)

/-- Whatever has happened so far, the client can write its next two lines before the
    server receives anything. If it then receives both messages at once, it raises,
    and neither of them is inserted. -/
theorem reaches_raised (v : Go.Version) (mydb : MySql) (inputs : List (Address × Bytes)) :
    ∀ s, (System.lts (server mydb) (clientBody v) inputs).Reachable s →
      ∀ (c : Conn Action) (t : Terminal), s.server.phase = .serving c →
        s.terminals[s.server.closed.length]? = some t →
        c.session.chunks.flatMap Chunk.data = t.client.written.flatten →
        ∀ n, t.client.written.length = n → text t.input n ≠ quit → text t.input (n + 1) ≠ quit →
          (message v (text t.input n)).length + (message v (text t.input (n + 1))).length ≤
            recvSize →
          ∃ s' c' e, (System.lts (server mydb) (clientBody v) inputs).Reaches s s' ∧
            s'.server.phase = .raised c' e ∧
            c'.session.chunks.flatMap Chunk.data = c.session.chunks.flatMap Chunk.data ++
              (message v (text t.input n) ++ message v (text t.input (n + 1))) ∧
            rows c'.actions = rows c.actions := by
  rintro ⟨ts, rest, closed, phase⟩ hs c t rfl ht hall n rfl hquit hquit' hsize
  obtain ⟨ts', t', hr, ht', -, hwritten⟩ :=
    System.reaches_two_lines sends_message text_mem_univ hs ht hall hquit hquit'
  -- Both messages are written now, and `recv` may return them together.
  obtain ⟨actions, e, hturn, hrows⟩ := turn_of_not_saved c.addr (not_saved_two mydb
    (text t.input t.client.written.length) (text t.input (t.client.written.length + 1)))
  have hstart : (c.session.chunks ++ [twoMessages v _ _ hsize]).flatMap Chunk.data <+:
      t'.client.written.flatten := by
    rw [hwritten, List.flatMap_append, List.flatMap_singleton]
    exact List.prefix_rfl
  have hraise : ((server mydb).turn c.addr (twoMessages v _ _ hsize).data).outcome = .error e :=
    congrArg Turn.outcome hturn
  obtain ⟨c', hst, hchunks, hactions⟩ := System.exists_step_raise
    (System.final_eq_none sends_message text_mem_univ hs) ht' hstart hraise
  refine ⟨_, c', e, hr.tail hst, rfl, ?_, ?_⟩
  · rw [hchunks, List.flatMap_append, List.flatMap_singleton, twoMessages]
  · rw [hactions, rows_append, twoMessages, hturn, hrows, List.append_nil]

/-- So the lines `a` and `b`, when they are received together, are not inserted. -/
theorem reaches_raised_ab : ∃ s c e,
    (System.lts (server .strings) (clientBody Go.go121) [System.abq]).Reachable s ∧
      s.server.phase = .raised c e ∧
      c.session.chunks.flatMap Chunk.data =
        message Go.go121 [0x61, 0x0a] ++ message Go.go121 [0x62, 0x0a] ∧
      rows c.actions = [] := by
  obtain ⟨ts, rest, hs, ht⟩ :=
    System.reachable_serving (server .strings) (clientBody Go.go121) System.abq []
  obtain ⟨s, c', e, hr, hphase, hchunks, hrows⟩ :=
    reaches_raised Go.go121 .strings [System.abq] _ hs.of_restrict _ _ rfl ht rfl 0 rfl
      (message_abq Nat.zero_lt_two).1 (message_abq Nat.one_lt_two).1
      ((Nat.add_le_add (length_message_le _) (length_message_le _)).trans (by decide))
  exact ⟨s, c', e, hs.of_restrict.reaches hr, hphase, hchunks, hrows⟩

end LogService.XdrJson
