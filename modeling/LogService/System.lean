import LogService.Client
import LogService.Network.Paced

/-!
# Terminals, clients and server

The services as they are used: at every terminal, a client runs its loop on what
is typed there, and the server accepts the clients' connections one after another
and receives what they write. Nobody waits for anybody else, and every client
goes on for as long as its loop does.

The network of `Network.lts` is given the texts that the clients will write. In
hindsight, a run of the system is a run of a network (`reachable_network`): that
of the texts the clients have written by its end.

* `typed`: at every terminal, the first lines have been written, none of them `q`;
* `reachable_paced`: clients that wait, are clients that wait in the network;
* `closed_drained`: a connection is closed only when its client has come to a last
  line `q`, and all it has written has been received.
-/

namespace LogService

open Utf8 (Bytes)
open Client (text Typed Sends)

/-- A client process: its address, what is typed at its terminal, and the client
    that reads it. -/
structure Terminal where
  addr : Address
  input : Bytes
  client : Client

/-- The terminals, in the order in which their connections are accepted, and the
    server. The server's sessions are what has been received so far. -/
structure System (ω : Type) where
  terminals : List Terminal
  server : State ω

variable {α ω : Type}

namespace System

/-- The steps of the system. -/
inductive Step (srv : Server ω) (body : Client → Option Client) : System ω → System ω → Prop
  /-- A client goes through the body of its loop. -/
  | client {ts : List Terminal} {x : State ω} {i : ℕ} {t : Terminal} {c : Client} :
      ts[i]? = some t → body t.client = some c →
      Step srv body ⟨ts, x⟩ ⟨ts.set i { t with client := c }, x⟩
  | accept {ts : List Terminal} {x y : State ω} :
      x.phase = .accepting → srv.Step x y → Step srv body ⟨ts, x⟩ ⟨ts, y⟩
  /-- `recv` returns bytes that have been written. -/
  | recv {ts : List Terminal} {rest : List Session} {closed : List (Conn ω)} {c : Conn ω}
      {y : State ω} {t : Terminal} (chunk : Chunk) :
      ts[closed.length]? = some t →
      (c.session.chunks ++ [chunk]).flatMap Chunk.data <+: t.client.written.flatten →
      srv.Step ⟨rest, closed, .serving (c.feed chunk)⟩ y →
      Step srv body ⟨ts, ⟨rest, closed, .serving c⟩⟩ ⟨ts, y⟩
  /-- `recv` returns no bytes: all has been received, and the client has left its
      loop, and with it the connection. -/
  | eof {ts : List Terminal} {rest : List Session} {closed : List (Conn ω)} {c : Conn ω}
      {y : State ω} {t : Terminal} :
      ts[closed.length]? = some t → body t.client = none →
      c.session.chunks.flatMap Chunk.data = t.client.written.flatten →
      srv.Step ⟨rest, closed, .serving c⟩ y →
      Step srv body ⟨ts, ⟨rest, closed, .serving c⟩⟩ ⟨ts, y⟩

/-- The system of the terminals at which `inputs` are typed. -/
def lts (srv : Server ω) (body : Client → Option Client) (inputs : List (Address × Bytes)) :
    Lts (System ω) where
  Init s := s = ⟨inputs.map fun p => ⟨p.1, p.2, Client.start p.2⟩,
    ⟨inputs.map fun p => ⟨p.1, []⟩, [], .accepting⟩⟩
  Step := Step srv body

/-- At no terminal there is more than one message on its way, or part of one. -/
def Paced (s : System ω) : Prop :=
  ∀ (i : ℕ) (t : Terminal) (x : Session), s.terminals[i]? = some t →
    s.server.sessions[i]? = some x → ∃ ms last, t.client.written = ms ++ last ∧
      last.length ≤ 1 ∧ x.chunks.flatMap Chunk.data = ms.flatten

/-- The system, with clients that wait. -/
def paced (srv : Server ω) (body : Client → Option Client) (inputs : List (Address × Bytes)) :
    Lts (System ω) :=
  (lts srv body inputs).restrict Paced

variable {srv : Server ω} {body : Client → Option Client} {inputs : List (Address × Bytes)}
  {s s' : System ω}

/-- At every terminal, there is typed what was to be. -/
theorem terminals_eq (hs : (lts srv body inputs).Reachable s) :
    s.terminals.map (fun t => (t.addr, t.input)) = inputs := by
  induction hs with
  | init h =>
    cases h
    rw [List.map_map]
    exact List.map_id _
  | step _ hst ih =>
    cases hst with
    | @client ts x i t c ht hbody =>
      obtain ⟨hi, rfl⟩ := List.getElem?_eq_some_iff.1 ht
      have hi' : i < (ts.map fun t => (t.addr, t.input)).length := by rwa [List.length_map]
      have hset : (ts[i].addr, ts[i].input) = (ts.map fun t => (t.addr, t.input))[i] := by
        rw [List.getElem_map]
      rw [List.map_set, hset, List.set_getElem_self]
      exact ih
    | accept _ _ | recv _ _ _ _ | eof _ _ _ _ => exact ih

/-! ## What the clients have written -/

section Sends

variable {enc : α → Bytes} {of : Bytes → α} {texts : Set Bytes}

/-- The clients have written their first lines. -/
theorem typed (h : Sends body (fun b => enc (of b)) texts)
    (hinputs : ∀ p ∈ inputs, ∀ j, text p.2 j ∈ texts)
    (hs : (lts srv body inputs).Reachable s) :
    ∀ t ∈ s.terminals, Typed (fun b => enc (of b)) t.input t.client := by
  induction hs with
  | init h =>
    cases h
    intro t ht
    obtain ⟨p, -, rfl⟩ := List.mem_map.1 ht
    exact Client.typed_start _ _
  | step hs hst ih =>
    cases hst with
    | @client ts x i t c ht hbody =>
      intro t' ht'
      rcases List.mem_or_eq_of_mem_set ht' with ht' | rfl
      · exact ih t' ht'
      · have hmem : (t.addr, t.input) ∈ inputs :=
          terminals_eq hs ▸ List.mem_map_of_mem (List.mem_of_getElem? ht)
        exact h.typed_next (hinputs _ hmem) (ih t (List.mem_of_getElem? ht)) hbody
    | accept _ _ | recv _ _ _ _ | eof _ _ _ _ => exact ih

end Sends

end System

/-! ## The network of the texts written -/

/-- The texts of `d` iterations from the `j`-th line on: up to a line `q`. -/
def Client.textsFrom (input : Bytes) : ℕ → ℕ → List Bytes
  | _, 0 => []
  | j, d + 1 => if text input j = quit then [] else text input j :: textsFrom input (j + 1) d

theorem Client.textsFrom_quit {input : Bytes} {j : ℕ} (h : text input j = quit) (d : ℕ) :
    textsFrom input j d = [] := by
  cases d with
  | zero => rfl
  | succ d => rw [textsFrom, if_pos h]

/-- The link of a terminal whose client will have gone through its loop at most
    `k` times: what has been written, and what will have been. -/
def Terminal.link (of : Bytes → α) (k : ℕ) (t : Terminal) : Link α where
  addr := t.addr
  written := (List.range t.client.written.length).map fun j => of (text t.input j)
  unwritten := (Client.textsFrom t.input t.client.written.length
    (k - t.client.written.length)).map of

namespace System

/-- The network of the system, for clients that will have gone through their
    loops at most `k` times. -/
def network (of : Bytes → α) (k : ℕ) (s : System ω) : Network α ω :=
  ⟨s.terminals.map (Terminal.link of k), s.server⟩

/-- The clients of that network. -/
def clients (of : Bytes → α) (k : ℕ) (inputs : List (Address × Bytes)) : List (Address × List α) :=
  inputs.map fun p => (p.1, (Client.textsFrom p.2 0 k).map of)

/-- No client has gone through its loop more than `k` times. -/
def Within (k : ℕ) (s : System ω) : Prop := ∀ t ∈ s.terminals, t.client.written.length ≤ k

variable {enc : α → Bytes} {of : Bytes → α} {texts : Set Bytes} {srv : Server ω}
  {body : Client → Option Client} {inputs : List (Address × Bytes)} {s s' : System ω} {k : ℕ}

theorem getElem?_link {ts : List Terminal} {i : ℕ} {t : Terminal} (ht : ts[i]? = some t) :
    (ts.map (Terminal.link of k))[i]? = some (t.link of k) := by
  rw [List.getElem?_map, ht, Option.map_some]

/-- A link holds what its client has written. -/
theorem stream_link {t : Terminal} (ht : Typed (fun b => enc (of b)) t.input t.client) :
    Framing.stream enc (t.link of k).written = t.client.written.flatten := by
  conv_rhs => rw [ht.written]
  rw [Terminal.link, Framing.stream, List.flatMap_map, List.flatMap_def]

/-- What a client writes in an iteration, its link was to write. -/
theorem link_write (h : Sends body (fun b => enc (of b)) texts) {t : Terminal}
    (htexts : ∀ j, text t.input j ∈ texts)
    (ht : Typed (fun b => enc (of b)) t.input t.client) {c : Client}
    (hbody : body t.client = some c) (hk : c.written.length ≤ k) :
    ∃ a rest, (t.link of k).unwritten = a :: rest ∧
      ({ t with client := c } : Terminal).link of k =
        ⟨t.addr, (t.link of k).written ++ [a], rest⟩ := by
  obtain ⟨hquit, rfl⟩ := h.of_body_eq_some (ht.textInput ▸ htexts _) hbody
  have hlength : (t.client.write (enc (of t.client.textInput))).read.written.length =
      t.client.written.length + 1 := List.length_append
  rw [hlength] at hk
  rw [ht.textInput] at hquit
  -- One iteration less is left after this one.
  have hleft : k - t.client.written.length = k - (t.client.written.length + 1) + 1 := by omega
  refine ⟨of (text t.input t.client.written.length), (Client.textsFrom t.input
    (t.client.written.length + 1) (k - (t.client.written.length + 1))).map of, ?_, ?_⟩
  · rw [Terminal.link, hleft, Client.textsFrom, if_neg hquit, List.map_cons]
  · rw [Terminal.link, hlength, List.range_succ, List.map_append, List.map_singleton, Terminal.link]

/-- When a client has left its loop, there is nothing more to write. -/
theorem link_unwritten (h : Sends body (fun b => enc (of b)) texts) {t : Terminal}
    (htexts : ∀ j, text t.input j ∈ texts)
    (ht : Typed (fun b => enc (of b)) t.input t.client) (hbody : body t.client = none) :
    (t.link of k).unwritten = [] := by
  have hquit := h.eq_quit_of_body_eq_none (ht.textInput ▸ htexts _) hbody
  rw [ht.textInput] at hquit
  rw [Terminal.link, Client.textsFrom_quit hquit, List.map_nil]

/-- The texts of a terminal's lines are those the clients can send. -/
theorem text_mem (hinputs : ∀ p ∈ inputs, ∀ j, text p.2 j ∈ texts)
    (hs : (lts srv body inputs).Reachable s) {t : Terminal} (ht : t ∈ s.terminals) (j : ℕ) :
    text t.input j ∈ texts := by
  have hmem : (t.addr, t.input) ∈ inputs := terminals_eq hs ▸ List.mem_map_of_mem ht
  exact hinputs _ hmem j

/-- A step of the system is one of the network. -/
theorem step_network (h : Sends body (fun b => enc (of b)) texts)
    (hinputs : ∀ p ∈ inputs, ∀ j, text p.2 j ∈ texts) (hs : (lts srv body inputs).Reachable s)
    (hst : Step srv body s s') (hk : Within k s') :
    Network.Step srv enc (s.network of k) (s'.network of k) := by
  have htyped := typed h hinputs hs
  cases hst with
  | @client ts x i t c ht hbody =>
    have hmem : t ∈ ts := List.mem_of_getElem? ht
    obtain ⟨a, rest, hunwritten, hlink⟩ := link_write h (text_mem hinputs hs hmem) (htyped t hmem)
      hbody (hk { t with client := c } (List.mem_set (List.getElem?_eq_some_iff.1 ht).1 _))
    rw [network, network, List.map_set, hlink]
    exact .write (getElem?_link ht) hunwritten
  | accept hphase hst => exact .accept hphase hst
  | @recv ts rest closed c y t chunk ht hprefix hst =>
    refine .recv chunk (getElem?_link ht) ?_ hst
    rwa [stream_link (htyped t (List.mem_of_getElem? ht))]
  | @eof ts rest closed c y t ht hbody hall hst =>
    have hmem : t ∈ ts := List.mem_of_getElem? ht
    refine .eof (getElem?_link ht)
      (link_unwritten h (text_mem hinputs hs hmem) (htyped t hmem) hbody) ?_ hst
    rwa [stream_link (htyped t hmem)]

/-- No client has gone through its loop more often before a step than after it. -/
theorem Within.of_step (h : Sends body (fun b => enc (of b)) texts)
    (hinputs : ∀ p ∈ inputs, ∀ j, text p.2 j ∈ texts) (hs : (lts srv body inputs).Reachable s)
    (hst : Step srv body s s') (hk : Within k s') : Within k s := by
  have htyped := typed h hinputs hs
  cases hst with
  | @client ts x i t c ht hbody =>
    intro t' ht'
    obtain ⟨j, hj⟩ := List.mem_iff_getElem?.1 ht'
    by_cases hi : i = j
    · subst hi
      cases ht.symm.trans hj
      have hc := hk { t with client := c } (List.mem_set (List.getElem?_eq_some_iff.1 ht).1 _)
      obtain ⟨-, rfl⟩ := h.of_body_eq_some
        ((htyped t ht').textInput ▸ text_mem hinputs hs ht' _) hbody
      exact (Nat.le_succ _).trans (List.length_append.symm.trans_le hc)
    · refine hk t' (List.mem_of_getElem? (i := j) ?_)
      rw [List.getElem?_set_ne hi, hj]
  | accept _ _ | recv _ _ _ _ | eof _ _ _ _ => exact hk

/-- The system starts as its network does. -/
theorem init_network (hs : (lts srv body inputs).Init s) :
    (Network.lts srv enc (clients of k inputs)).Init (s.network of k) := by
  obtain rfl := hs
  change Network.mk _ _ = Network.mk _ _
  rw [clients, List.map_map, List.map_map, List.map_map]
  rfl

theorem exists_within (s : System ω) : ∃ k, Within k s :=
  ⟨(s.terminals.map fun t => t.client.written.length).sum, fun _ ht =>
    List.le_sum_of_mem (List.mem_map_of_mem ht)⟩

/-- In hindsight, a run of the system is one of a network: that of the texts
    written by its end. -/
theorem reachable_network (h : Sends body (fun b => enc (of b)) texts)
    (hinputs : ∀ p ∈ inputs, ∀ j, text p.2 j ∈ texts) (hs : (lts srv body inputs).Reachable s)
    (hk : Within k s) : (Network.lts srv enc (clients of k inputs)).Reachable (s.network of k) := by
  refine (hs.restrict (fun _ _ hs hst => Within.of_step h hinputs hs hst) hk).map ?_ ?_
  · exact fun s hs => init_network hs.1
  · exact fun s s' hs hst => step_network h hinputs hs.of_restrict hst.1 hst.2

/-- Clients that wait, wait in the network. -/
theorem Paced.network (hp : Paced s)
    (htyped : ∀ t ∈ s.terminals, Typed (fun b => enc (of b)) t.input t.client) :
    (s.network of k).Paced enc := by
  intro i l x hl hx
  rw [System.network, List.getElem?_map, Option.map_eq_some_iff] at hl
  obtain ⟨t, ht, rfl⟩ := hl
  obtain ⟨ms, last, hwritten, hlast, hchunks⟩ := hp i t x ht hx
  -- The messages are those of as many texts.
  have hmap : (t.link of k).written.map enc = ms ++ last := by
    rw [← hwritten, (htyped t (List.mem_of_getElem? ht)).written, Terminal.link, List.map_map]
    rfl
  obtain ⟨ts, last', heq, rfl, rfl⟩ := List.map_eq_append_iff.1 hmap
  exact ⟨ts, last', heq, by rwa [List.length_map] at hlast, hchunks⟩

theorem reachable_paced (h : Sends body (fun b => enc (of b)) texts)
    (hinputs : ∀ p ∈ inputs, ∀ j, text p.2 j ∈ texts) (hs : (paced srv body inputs).Reachable s)
    (hk : Within k s) :
    (Network.paced srv enc (clients of k inputs)).Reachable (s.network of k) := by
  have hwithin : ∀ s s', (paced srv body inputs).Reachable s → (paced srv body inputs).Step s s' →
      Within k s' → Within k s := fun s s' hs hst =>
    Within.of_step h hinputs hs.of_restrict hst.1
  refine (hs.restrict hwithin hk).map ?_ ?_
  · rintro s ⟨⟨hinit, hpaced⟩, -⟩
    exact ⟨init_network hinit, hpaced.network (typed h hinputs (.init hinit))⟩
  · rintro s s' hs ⟨⟨hst, hpaced⟩, hk⟩
    have hs' : (lts srv body inputs).Reachable s := hs.of_restrict.of_restrict
    exact ⟨step_network h hinputs hs' hst hk, hpaced.network (typed h hinputs (hs'.step hst))⟩

/-! ## Connections -/

/-- Every connection has its terminal, and is a record of the receive loop, in the
    system, too. -/
theorem exists_terminal (h : Sends body (fun b => enc (of b)) texts)
    (hinputs : ∀ p ∈ inputs, ∀ j, text p.2 j ∈ texts) (hs : (lts srv body inputs).Reachable s)
    {i : ℕ} {c : Conn ω} (hc : s.server.conns[i]? = some c) :
    ∃ t, s.terminals[i]? = some t ∧ c.addr = t.addr ∧ c.IsRecord srv ∧ c.arriving = [] ∧
      c.received = c.session.chunks.map Chunk.data := by
  obtain ⟨k, hk⟩ := exists_within s
  have hn := reachable_network h hinputs hs hk
  obtain ⟨l, hl, haddr⟩ := Network.exists_link hn hc
  rw [network, List.getElem?_map, Option.map_eq_some_iff] at hl
  obtain ⟨t, ht, rfl⟩ := hl
  obtain ⟨hrecord, hreceived⟩ := Network.isRecord hn hc
  exact ⟨t, ht, haddr, hrecord, Network.conn_arriving hn hc, hreceived⟩

/-- What has been received has been written. -/
theorem received_isPrefix (h : Sends body (fun b => enc (of b)) texts)
    (hinputs : ∀ p ∈ inputs, ∀ j, text p.2 j ∈ texts) (hs : (lts srv body inputs).Reachable s)
    {i : ℕ} {c : Conn ω} (hc : s.server.conns[i]? = some c) {t : Terminal}
    (ht : s.terminals[i]? = some t) :
    c.session.chunks.flatMap Chunk.data <+: t.client.written.flatten := by
  obtain ⟨k, hk⟩ := exists_within s
  have hstream := Network.received_isPrefix (reachable_network h hinputs hs hk)
    (State.getElem?_sessions hc) (getElem?_link ht)
  rwa [stream_link (typed h hinputs hs t (List.mem_of_getElem? ht))] at hstream

/-- The input of a terminal is the one in its place. -/
theorem getElem?_inputs (hs : (lts srv body inputs).Reachable s) {i : ℕ} {t : Terminal}
    (ht : s.terminals[i]? = some t) : inputs[i]? = some (t.addr, t.input) := by
  rw [← terminals_eq hs, List.getElem?_map, ht, Option.map_some]

/-! ## Closed connections -/

/-- A connection is closed only when its client has left its loop, and all that it
    has written has been received. -/
theorem closed_drained (hdata : ∀ addr data, data ≠ [] → (srv.turn addr data).outcome ≠ .ok .leave)
    (hs : (lts srv body inputs).Reachable s) {i : ℕ} {c : Conn ω}
    (hc : s.server.closed[i]? = some c) :
    ∃ t, s.terminals[i]? = some t ∧ body t.client = none ∧
      c.session.chunks.flatMap Chunk.data = t.client.written.flatten := by
  induction hs generalizing c with
  | init h =>
    cases h
    cases hc
  | step _ hst ih =>
    cases hst with
    | @client ts x j t c' ht hbody =>
      obtain ⟨t', ht', hnone, hall⟩ := ih hc
      -- The client of a closed connection has left its loop for good.
      have hj : j ≠ i := by
        rintro rfl
        cases ht.symm.trans ht'
        cases hbody.symm.trans hnone
      exact ⟨t', by rwa [List.getElem?_set_ne hj], hnone, hall⟩
    | accept hphase hst =>
      cases hst with
      | accept => exact ih hc
      | next _ | leave _ | raise _ => cases hphase
    | recv chunk _ _ hst =>
      cases hst with
      | next _ | raise _ => exact ih hc
      | leave hleave => exact absurd hleave (hdata _ _ chunk.ne_nil)
    | @eof ts rest closed c' y t ht hbody hall hst =>
      cases hst with
      | next _ | raise _ => exact ih hc
      | leave _ =>
        rcases Nat.lt_or_ge i closed.length with hi | hi
        · exact ih ((List.getElem?_append_left hi).symm.trans hc)
        -- It is the connection that this step has closed.
        · have hlt := (List.getElem?_eq_some_iff.1 hc).1
          rw [List.length_append, List.length_singleton] at hlt
          obtain rfl : i = closed.length := by omega
          obtain rfl := Option.some.inj (List.getElem?_concat_length.symm.trans hc)
          exact ⟨t, ht, hbody, hall⟩

/-- So its client has come to the last line, `q`, and what has been received are
    the messages of the lines before it. -/
theorem closed_lines (h : Sends body (fun b => enc (of b)) texts)
    (hinputs : ∀ p ∈ inputs, ∀ j, text p.2 j ∈ texts)
    (hdata : ∀ addr data, data ≠ [] → (srv.turn addr data).outcome ≠ .ok .leave)
    (hs : (lts srv body inputs).Reachable s) {i : ℕ} {c : Conn ω}
    (hc : s.server.closed[i]? = some c) :
    ∃ p before, inputs[i]? = some p ∧ Go.lines p.2 = before ++ [quit] ∧
      c.session.chunks.flatMap Chunk.data = Framing.stream enc (before.map of) := by
  obtain ⟨t, ht, hnone, hall⟩ := closed_drained hdata hs hc
  have hmem : t ∈ s.terminals := List.mem_of_getElem? ht
  have htyped := typed h hinputs hs t hmem
  have hquit := h.eq_quit_of_body_eq_none (htyped.textInput ▸ text_mem hinputs hs hmem _) hnone
  obtain ⟨before, hlines, hwritten⟩ := htyped.lines_eq hquit
  refine ⟨_, before, getElem?_inputs hs ht, hlines, ?_⟩
  rw [hall, hwritten, Framing.stream, List.flatMap_map, List.flatMap_def]

/-! ## Exceptions -/

/-- When the server has raised, it did so on the last chunk received, or else when
    the client had left its loop and all it had written had been received. -/
theorem raised_cases (h : Sends body (fun b => enc (of b)) texts)
    (hinputs : ∀ p ∈ inputs, ∀ j, text p.2 j ∈ texts) (hs : (lts srv body inputs).Reachable s)
    {c : Conn ω} {e : Python.Exception} (hphase : s.server.phase = .raised c e) :
    ∃ t, s.terminals[s.server.closed.length]? = some t ∧
      ((∃ l bad, c.session.chunks = l ++ [bad] ∧ (srv.turn c.addr bad.data).outcome = .error e) ∨
        (body t.client = none ∧ c.session.chunks.flatMap Chunk.data = t.client.written.flatten ∧
          (srv.turn c.addr []).outcome = .error e)) := by
  induction hs with
  | init h =>
    cases h
    cases hphase
  | step hs hst ih =>
    cases hst with
    | @client ts x i t c' ht hbody =>
      obtain ⟨t', ht', hcases⟩ := ih hphase
      by_cases hi : i = x.closed.length
      · subst hi
        obtain rfl := Option.some.inj (ht.symm.trans ht')
        -- The client is in its loop, so the server has raised on a chunk.
        rcases hcases with hbad | ⟨hnone, -⟩
        · exact ⟨_, List.getElem?_set_self (List.getElem?_eq_some_iff.1 ht).1, .inl hbad⟩
        · cases hbody.symm.trans hnone
      · exact ⟨t', (List.getElem?_set_ne hi).trans ht', hcases⟩
    | accept hphase' hst =>
      cases hst with
      | accept => cases hphase
      | next _ | leave _ | raise _ => cases hphase'
    | recv chunk ht _ hst =>
      cases hst with
      | next _ | leave _ => cases hphase
      | raise hraise =>
        cases hphase
        exact ⟨_, ht, .inl ⟨_, chunk, rfl, hraise⟩⟩
    | eof ht hbody hall hst =>
      cases hst with
      | next _ | leave _ => cases hphase
      | raise hraise =>
        cases hphase
        obtain ⟨-, -, -, -, harr, -⟩ := exists_terminal h hinputs hs (Network.getElem?_conns _ _ _)
        rw [Server.nextTurn, Server.recv, harr] at hraise
        exact ⟨_, ht, .inr ⟨hbody, hall, hraise⟩⟩

end System

end LogService
