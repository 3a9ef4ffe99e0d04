import LogService.Delivery

/-!
# Clients, connections and server

The whole system: clients that write their messages whenever they like, to
connections that hold what has been written until it is received, and the server,
which accepts the connections one after another and receives, at every call of
`recv`, some of the bytes that have been written and not been received yet. Here
nothing is known in advance: a chunk is whatever `recv` returns when it is called.

The servers of `Server.lts` run on deliveries instead, whose chunks are given. The
two views agree:

* `exists_server_run`: what the server does in the network, it does on some
  deliveries of the clients' texts;
* `exists_network_run`: and all that it does on deliveries, it may do in the network.
-/

namespace LogService

open Utf8 (Bytes)

/-- A client and its connection: the texts whose messages have been written, and
    those to come, after which the client closes the connection. -/
structure Link (α : Type) where
  addr : Address
  written : List α
  unwritten : List α

/-- The client of a link: its address, and all its texts. -/
def Link.client {α : Type} (l : Link α) : Address × List α := (l.addr, l.written ++ l.unwritten)

/-- The clients' links, in the order in which they are accepted, and the server.
    The server's sessions are here what has been received so far. -/
structure Network (α ω : Type) where
  links : List (Link α)
  server : State ω

variable {α ω : Type} (srv : Server ω) (enc : α → Bytes)

/-- A chunk is received: it is part of the session, and the next to be processed. -/
def Conn.feed (c : Conn ω) (chunk : Chunk) : Conn ω :=
  { c with session := ⟨c.addr, c.session.chunks ++ [chunk]⟩, arriving := [chunk] }

namespace Network

/-- The steps of the network. -/
inductive Step : Network α ω → Network α ω → Prop
  /-- A client writes its next message. -/
  | write {links : List (Link α)} {x : State ω} {i : ℕ} {l : Link α} {t : α} {rest : List α} :
      links[i]? = some l → l.unwritten = t :: rest →
      Step ⟨links, x⟩ ⟨links.set i ⟨l.addr, l.written ++ [t], rest⟩, x⟩
  | accept {links : List (Link α)} {x y : State ω} :
      x.phase = .accepting → srv.Step x y → Step ⟨links, x⟩ ⟨links, y⟩
  /-- `recv` returns bytes that have been written. -/
  | recv {links : List (Link α)} {rest : List Session} {closed : List (Conn ω)} {c : Conn ω}
      {y : State ω} {l : Link α} (chunk : Chunk) :
      links[closed.length]? = some l →
      (c.session.chunks ++ [chunk]).flatMap Chunk.data <+: Framing.stream enc l.written →
      srv.Step ⟨rest, closed, .serving (c.feed chunk)⟩ y →
      Step ⟨links, ⟨rest, closed, .serving c⟩⟩ ⟨links, y⟩
  /-- `recv` returns no bytes: all has been received, and the client has closed
      the connection. -/
  | eof {links : List (Link α)} {rest : List Session} {closed : List (Conn ω)} {c : Conn ω}
      {y : State ω} {l : Link α} :
      links[closed.length]? = some l → l.unwritten = [] →
      c.session.chunks.flatMap Chunk.data = Framing.stream enc l.written →
      srv.Step ⟨rest, closed, .serving c⟩ y →
      Step ⟨links, ⟨rest, closed, .serving c⟩⟩ ⟨links, y⟩

/-- The network with the clients `clients`: their addresses, and their texts. -/
def lts (clients : List (Address × List α)) : Lts (Network α ω) where
  Init n := n = ⟨clients.map fun cl => ⟨cl.1, [], cl.2⟩,
    ⟨clients.map fun cl => ⟨cl.1, []⟩, [], .accepting⟩⟩
  Step := Step srv enc

end Network

/-! ## Completing what has been received -/

/-- The connection `c'` is `c`, with chunks still to arrive. -/
structure Conn.Completes (c c' : Conn ω) : Prop where
  addr : c'.addr = c.addr
  chunks : c'.session.chunks = c.session.chunks ++ c'.arriving
  arriving : c.arriving = []
  turns : c'.turns = c.turns
  final : c'.final = c.final

/-- The phases, with chunks still to arrive. -/
inductive Phase.Completes : Phase ω → Phase ω → Prop
  | accepting : Completes .accepting .accepting
  | serving {c c' : Conn ω} : c.Completes c' → Completes (.serving c) (.serving c')
  | raised {c c' : Conn ω} {e : Python.Exception} :
      c.Completes c' → Completes (.raised c e) (.raised c' e)

/-- The state `y` is the state `x`, with chunks still to arrive on its
    connections, and on those to come. -/
structure State.Completes (x y : State ω) : Prop where
  closed : List.Forall₂ Conn.Completes x.closed y.closed
  phase : x.phase.Completes y.phase
  upcoming : List.Forall₂ (fun s s' => s'.addr = s.addr ∧ s.chunks = []) x.upcoming y.upcoming

/-- The next iteration on `c'` is that on `c`, which has nothing else to come. -/
structure Conn.Ready (c c' : Conn ω) : Prop where
  addr : c'.addr = c.addr
  recv : (Server.recv c').1 = (Server.recv c).1
  chunks : c'.session.chunks = c.session.chunks ++ (Server.recv c').2
  arriving : (Server.recv c).2 = []
  turns : c'.turns = c.turns
  final : c'.final = c.final

/-- Nothing is arriving on either: the peer has closed the connection. -/
theorem Conn.Completes.ready_eof {c c' : Conn ω} (h : c.Completes c') (harr : c'.arriving = []) :
    c.Ready c' where
  addr := h.addr
  recv := by rw [Server.recv, Server.recv, harr, h.arriving]
  chunks := by rw [Server.recv, h.chunks, harr]
  arriving := by rw [Server.recv, h.arriving]
  turns := h.turns
  final := h.final

/-- The first chunk arriving on `c'` is received on `c`. -/
theorem Conn.Completes.ready_feed {c c' : Conn ω} (h : c.Completes c') {chunk : Chunk}
    {more : List Chunk} (harr : c'.arriving = chunk :: more) : (c.feed chunk).Ready c' where
  addr := h.addr
  recv := by rw [Server.recv, harr, Server.recv, Conn.feed]
  chunks := by rw [Server.recv, h.chunks, harr, Conn.feed, List.append_cons]
  arriving := rfl
  turns := h.turns
  final := h.final

variable {srv}

/-- The same has been received and done. -/
theorem Conn.Completes.allTurns_eq {c c' : Conn ω} (h : c.Completes c') :
    c'.allTurns = c.allTurns := by
  rw [Conn.allTurns, Conn.allTurns, h.turns, h.final]

theorem Conn.Completes.actions_eq {c c' : Conn ω} (h : c.Completes c') :
    c'.actions = c.actions := by
  rw [Conn.actions, Conn.actions, h.allTurns_eq]

theorem Conn.Completes.received_eq {c c' : Conn ω} (h : c.Completes c') :
    c'.received = c.received := by
  rw [Conn.received, Conn.received, h.allTurns_eq]

/-- What is a record with chunks still to arrive, is one without. -/
theorem Conn.Completes.isRecord {c c' : Conn ω} (h : c.Completes c') (hc' : c'.IsRecord srv) :
    c.IsRecord srv where
  received_append := by
    have happend := hc'.received_append
    rw [h.received_eq, h.chunks, List.map_append, List.append_cancel_right_eq] at happend
    rw [h.arriving, List.map_nil, List.append_nil, happend]
  turn t ht := by
    rw [← h.addr]
    exact hc'.turn t (h.allTurns_eq ▸ ht)
  next t ht := hc'.next t (h.turns ▸ ht)
  eof _ _ _ := h.arriving

namespace Conn.Ready

variable {c c' : Conn ω}

theorem nextTurn_eq (h : c.Ready c') : srv.nextTurn c' = srv.nextTurn c := by
  rw [Server.nextTurn, Server.nextTurn, h.addr, h.recv]

/-- After the iteration, there is more to arrive on `c'` only. -/
theorem completes (h : c.Ready c') (turns : List (Turn ω)) (final : Option (Turn ω)) :
    Conn.Completes { c with arriving := (Server.recv c).2, turns := turns, final := final }
      { c' with arriving := (Server.recv c').2, turns := turns, final := final } :=
  ⟨h.addr, h.chunks, h.arriving, rfl, rfl⟩

variable {rest rest' : List Session} {closed closed' : List (Conn ω)}

/-- A step on `c` is one on `c'`. -/
theorem exists_step (h : c.Ready c')
    (hx : State.Completes ⟨rest, closed, .accepting⟩ ⟨rest', closed', .accepting⟩) {y : State ω}
    (hst : srv.Step ⟨rest, closed, .serving c⟩ y) :
    ∃ y', srv.Step ⟨rest', closed', .serving c'⟩ y' ∧ y.Completes y' := by
  cases hst with
  | next hnext =>
    refine ⟨_, .next (h.nextTurn_eq ▸ hnext), hx.closed, .serving ?_, hx.upcoming⟩
    rw [h.turns, h.final, h.nextTurn_eq]
    exact h.completes _ _
  | leave hleave =>
    refine ⟨_, .leave (h.nextTurn_eq ▸ hleave), ?_, .accepting, hx.upcoming⟩
    rw [h.turns, h.nextTurn_eq]
    exact List.rel_append hx.closed (.cons (h.completes _ _) .nil)
  | raise hraise =>
    refine ⟨_, .raise (h.nextTurn_eq ▸ hraise), hx.closed, .raised ?_, hx.upcoming⟩
    rw [h.turns, h.nextTurn_eq]
    exact h.completes _ _

end Conn.Ready

/-- A connection just accepted, of which nothing has been received. -/
theorem Conn.completes_accept {s s' : Session} (haddr : s'.addr = s.addr) (hs : s.chunks = []) :
    (Server.accept s : Conn ω).Completes (Server.accept s') where
  addr := haddr
  chunks := by
    rw [Server.accept, Server.accept, hs]
    rfl
  arriving := hs
  turns := rfl
  final := rfl

namespace State.Completes

variable {x x' y y' : State ω}

/-- The connections are the same, with chunks still to arrive. -/
theorem conns (h : x.Completes y) : List.Forall₂ Conn.Completes x.conns y.conns := by
  refine List.rel_append h.closed ?_
  have hphase := h.phase
  revert hphase
  generalize x.phase = p
  generalize y.phase = q
  rintro (_ | hc | hc)
  · exact .nil
  · exact .cons hc .nil
  · exact .cons hc .nil

theorem exists_conn (h : x.Completes y) {i : ℕ} {c : Conn ω} (hc : x.conns[i]? = some c) :
    ∃ c', y.conns[i]? = some c' ∧ c.Completes c' := by
  obtain ⟨hi, rfl⟩ := List.getElem?_eq_some_iff.1 hc
  have hi' : i < y.conns.length := h.conns.length_eq ▸ hi
  exact ⟨y.conns[i], List.getElem?_eq_getElem hi', h.conns.get hi hi'⟩

/-- The one has raised if and only if the other has. -/
theorem raised_iff (h : x.Completes y) : x.Raised ↔ y.Raised := by
  have hphase := h.phase
  rw [State.Raised, State.Raised]
  revert hphase
  generalize x.phase = p
  generalize y.phase = q
  rintro (_ | _ | _) <;> simp

/-- Accepting a connection is the same. -/
theorem exists_accept (hx : x.Completes x') (hphase : x.phase = .accepting)
    (hst : srv.Step x y) : ∃ y', srv.Step x' y' ∧ y.Completes y' := by
  obtain ⟨hclosed, hphase', hupcoming⟩ := hx
  obtain ⟨upcoming', closed', phase'⟩ := x'
  cases hst with
  | accept =>
    cases hphase'
    cases hupcoming with
    | cons hs hrest =>
      exact ⟨_, .accept, hclosed, .serving (Conn.completes_accept hs.1 hs.2), hrest⟩
  | next _ | leave _ | raise _ => cases hphase

end State.Completes

/-! ## What holds in the network -/

namespace Network

variable {enc} {clients : List (Address × List α)} {n n' : Network α ω}

/-- A client writes the texts it was given, in order. -/
theorem links_eq (hn : (lts srv enc clients).Reachable n) : n.links.map Link.client = clients := by
  refine hn.induct (P := fun n => n.links.map Link.client = clients) ?_ fun n n' _ hst ih => ?_
  · rintro _ rfl
    rw [List.map_map]
    exact List.map_id _
  · cases hst with
    | @write links x i l t rest hl hunwritten =>
      obtain ⟨hi, rfl⟩ := List.getElem?_eq_some_iff.1 hl
      have hi' : i < (links.map Link.client).length := by rwa [List.length_map]
      have hclient : Link.client ⟨links[i].addr, links[i].written ++ [t], rest⟩ =
          (links.map Link.client)[i] := by
        rw [List.getElem_map, Link.client, Link.client, hunwritten, List.append_assoc]
        rfl
      rw [List.map_set, hclient, List.set_getElem_self]
      exact ih
    | accept _ _ | recv _ _ _ _ | eof _ _ _ _ => exact ih

/-- The deliveries are right about what has been received. -/
def Foresees (ds : List (Delivery enc)) (n : Network α ω) : Prop :=
  ∀ (i : ℕ) (s : Session) (d : Delivery enc),
    n.server.sessions[i]? = some s → ds[i]? = some d → s.chunks <+: d.chunks

theorem getElem?_conns (rest : List Session) (closed : List (Conn ω)) (c : Conn ω) :
    (⟨rest, closed, .serving c⟩ : State ω).conns[closed.length]? = some c := by
  simp [State.conns, Phase.conn]

/-- A chunk received is added to the session of the connection being served. -/
theorem sessions_feed {rest : List Session} {closed : List (Conn ω)} {c : Conn ω} {chunk : Chunk}
    {y : State ω} (hst : srv.Step ⟨rest, closed, .serving (c.feed chunk)⟩ y) :
    y.sessions = (⟨rest, closed, .serving c⟩ : State ω).sessions.set closed.length
      (c.feed chunk).session := by
  rw [hst.sessions_eq]
  simp [State.sessions, State.conns, Phase.conn]

/-- They have been right before, as nothing received is taken back. -/
theorem Foresees.of_step {ds : List (Delivery enc)} (hst : Step srv enc n n')
    (h : Foresees ds n') : Foresees ds n := by
  intro i s d hs hd
  cases hst with
  | write _ _ => exact h i s d hs hd
  | accept _ hst => exact h i s d (hst.sessions_eq ▸ hs) hd
  | @recv links rest closed c y l chunk _ _ hst =>
    by_cases hi : closed.length = i
    · subst hi
      have hc := State.getElem?_sessions (getElem?_conns rest closed c)
      obtain rfl : c.session = s := Option.some.inj (hc.symm.trans hs)
      -- One chunk more has been received after the step than before it.
      refine (List.prefix_append _ [chunk]).trans (h _ (c.feed chunk).session d ?_ hd)
      rw [sessions_feed hst, List.getElem?_set_self (List.getElem?_eq_some_iff.1 hc).1]
    · refine h i s d ?_ hd
      rw [sessions_feed hst, List.getElem?_set_ne hi]
      exact hs
  | eof _ _ _ hst => exact h i s d (hst.sessions_eq ▸ hs) hd

/-- What has been received of a link has been written to it. -/
theorem received_isPrefix (hn : (lts srv enc clients).Reachable n) {i : ℕ} {s : Session}
    {l : Link α} (hs : n.server.sessions[i]? = some s) (hl : n.links[i]? = some l) :
    s.chunks.flatMap Chunk.data <+: Framing.stream enc l.written := by
  induction hn generalizing s l with
  | init h =>
    cases h
    simp only [State.sessions, State.conns, Phase.conn, Option.toList_none, List.append_nil,
      List.map_nil, List.nil_append, List.getElem?_map, Option.map_eq_some_iff] at hs
    obtain ⟨cl, -, rfl⟩ := hs
    exact List.nil_prefix
  | step _ hst ih =>
    cases hst with
    | @write links x j l' t rest hl' hunwritten =>
      by_cases hj : j = i
      · subst hj
        rw [List.getElem?_set_self (List.getElem?_eq_some_iff.1 hl').1] at hl
        cases hl
        -- More has been written now, and nothing received.
        refine (ih hs hl').trans ?_
        rw [Framing.stream_append]
        exact List.prefix_append _ _
      · rw [List.getElem?_set_ne hj] at hl
        exact ih hs hl
    | accept _ hst => exact ih (hst.sessions_eq ▸ hs) hl
    | @recv links rest closed c y l' chunk hl' hwritten hst =>
      by_cases hi : closed.length = i
      · subst hi
        have hc := State.getElem?_sessions (getElem?_conns rest closed c)
        rw [sessions_feed hst, List.getElem?_set_self (List.getElem?_eq_some_iff.1 hc).1] at hs
        cases hs
        cases hl'.symm.trans hl
        exact hwritten
      · rw [sessions_feed hst, List.getElem?_set_ne hi] at hs
        exact ih hs hl
    | eof _ _ _ hst => exact ih (hst.sessions_eq ▸ hs) hl

/-! ## The server in the network, and on deliveries -/

variable {ds : List (Delivery enc)}

/-- The connection being served is a delivery. -/
theorem exists_delivery {rest : List Session} {closed : List (Conn ω)} {c : Conn ω}
    (hx : State.Recorded srv (ds.map Delivery.session) ⟨rest, closed, .serving c⟩) :
    ∃ d, ds[closed.length]? = some d ∧ c.session = d.session := by
  have hc := State.getElem?_sessions (getElem?_conns rest closed c)
  rw [hx.sessions, List.getElem?_map] at hc
  obtain ⟨d, hd, hsession⟩ := Option.map_eq_some_iff.1 hc
  exact ⟨d, hd, hsession.symm⟩

/-- The texts of a link are those of the delivery in its place. -/
theorem client_eq (hn : (lts srv enc clients).Reachable n)
    (hds : ds.map (fun d => (d.addr, d.sent)) = clients) (i : ℕ) :
    n.links[i]?.map Link.client = ds[i]?.map fun d => (d.addr, d.sent) := by
  rw [← List.getElem?_map, ← List.getElem?_map, links_eq hn, hds]

/-- When all that was written has been received, nothing is arriving any more. -/
theorem arriving_eq_nil {c c' : Conn ω} (h : c.Completes c') {d : Delivery enc}
    (hd : c'.session = d.session)
    (hall : c.session.chunks.flatMap Chunk.data = Framing.stream enc d.sent) :
    c'.arriving = [] := by
  have hcut := d.cut
  rw [← Delivery.session_chunks, ← hd, h.chunks, List.flatMap_append, ← hall,
    List.append_right_eq_self] at hcut
  cases harr : c'.arriving with
  | nil => rfl
  | cons chunk more =>
    rw [harr, List.flatMap_cons] at hcut
    exact absurd (List.append_eq_nil_iff.1 hcut).1 chunk.ne_nil

/-- What the server does in the network, it does on deliveries that are right
    about what will have been received. -/
theorem simulation (hds : ds.map (fun d => (d.addr, d.sent)) = clients) :
    Lts.Simulation ((lts srv enc clients).restrict (Foresees ds))
      (srv.lts (ds.map Delivery.session)) fun n x => n.server.Completes x where
  init := by
    rintro _ ⟨rfl, -⟩
    refine ⟨_, rfl, .nil, .accepting, ?_⟩
    subst hds
    rw [List.forall₂_map_left_iff, List.forall₂_map_left_iff, List.forall₂_map_right_iff]
    exact List.forall₂_same.2 fun d _ => ⟨rfl, rfl⟩
  step := by
    rintro n n' x hn hx hR ⟨hst, hforesees⟩
    have hrec := recorded_of_reachable hx
    cases hst with
    | write _ _ => exact ⟨x, .refl, hR⟩
    | accept hphase hst =>
      obtain ⟨y, hy, hR'⟩ := hR.exists_accept hphase hst
      exact ⟨y, .single hy, hR'⟩
    | @recv links rest closed c y l chunk hl hwritten hst =>
      obtain ⟨rest', closed', phase'⟩ := x
      obtain ⟨hclosed, hphase, hupcoming⟩ := hR
      cases hphase with
      | @serving _ c' hc =>
        obtain ⟨d, hd, hsession⟩ := exists_delivery hrec
        rw [← hclosed.length_eq] at hd
        -- The next chunk of the delivery is the one that was received.
        have hchunk : (c.session.chunks ++ [chunk]) <+: d.chunks := by
          refine hforesees _ (c.feed chunk).session d ?_ hd
          change y.sessions[closed.length]? = _
          rw [hst.sessions_eq]
          exact State.getElem?_sessions (getElem?_conns rest closed (c.feed chunk))
        rw [← Delivery.session_chunks, ← hsession, hc.chunks,
          List.prefix_append_right_inj] at hchunk
        obtain ⟨more, hmore⟩ := hchunk
        obtain ⟨y', hy', hR'⟩ :=
          (hc.ready_feed hmore.symm).exists_step ⟨hclosed, .accepting, hupcoming⟩ hst
        exact ⟨y', .single hy', hR'⟩
    | @eof links rest closed c y l hl hunwritten hall hst =>
      obtain ⟨rest', closed', phase'⟩ := x
      obtain ⟨hclosed, hphase, hupcoming⟩ := hR
      cases hphase with
      | @serving _ c' hc =>
        obtain ⟨d, hd, hsession⟩ := exists_delivery hrec
        rw [← hclosed.length_eq] at hd
        have hclient := client_eq hn.of_restrict hds closed.length
        rw [hl, hd] at hclient
        have hsent : d.sent = l.written := by
          rw [← List.append_nil l.written, ← hunwritten]
          exact (Prod.mk.inj (Option.some.inj hclient)).2.symm
        have harriving := arriving_eq_nil hc hsession (hsent ▸ hall)
        obtain ⟨y', hy', hR'⟩ :=
          (hc.ready_eof harriving).exists_step ⟨hclosed, .accepting, hupcoming⟩ hst
        exact ⟨y', .single hy', hR'⟩

/-- What has been received of a client's texts is the start of a delivery of them. -/
theorem exists_foresees (hn : (lts srv enc clients).Reachable n) :
    ∃ ds : List (Delivery enc), ds.map (fun d => (d.addr, d.sent)) = clients ∧ Foresees ds n := by
  have hdelivery : ∀ i : Fin clients.length, ∃ d : Delivery enc, (d.addr, d.sent) = clients.get i ∧
      ∀ s, n.server.sessions[i.val]? = some s → s.chunks <+: d.chunks := by
    intro i
    obtain ⟨l, hl, hclient⟩ : ∃ l, n.links[i.val]? = some l ∧ l.client = clients.get i := by
      rw [← Option.map_eq_some_iff, ← List.getElem?_map, links_eq hn]
      exact List.getElem?_eq_getElem i.isLt
    -- What has been received so far, and any cutting of what has not.
    cases hs : n.server.sessions[i.val]? with
    | none =>
      obtain ⟨chunks, hchunks⟩ := exists_chunks (Framing.stream enc (l.written ++ l.unwritten))
      exact ⟨⟨l.addr, _, chunks, hchunks⟩, hclient, by rintro _ ⟨⟩⟩
    | some s =>
      obtain ⟨bs, hbs⟩ := received_isPrefix hn hs hl
      obtain ⟨more, hmore⟩ := exists_chunks (bs ++ Framing.stream enc l.unwritten)
      refine ⟨⟨l.addr, l.written ++ l.unwritten, s.chunks ++ more, ?_⟩, hclient, ?_⟩
      · rw [List.flatMap_append, hmore, ← List.append_assoc, hbs, Framing.stream_append]
      · rintro _ ⟨⟩
        exact List.prefix_append _ _
  choose d hd hforesees using hdelivery
  refine ⟨List.ofFn d, ?_, fun i s d' hs hd' => ?_⟩
  · rw [List.map_ofFn]
    exact (congrArg List.ofFn (funext hd)).trans (List.ofFn_get clients)
  · obtain ⟨hi, rfl⟩ := List.getElem?_eq_some_iff.1 hd'
    rw [List.getElem_ofFn]
    exact hforesees _ s hs

/-- Whatever the server does in the network, it does on deliveries of the
    clients' texts. -/
theorem exists_server_run (hn : (lts srv enc clients).Reachable n) :
    ∃ (ds : List (Delivery enc)) (x : State ω), ds.map (fun d => (d.addr, d.sent)) = clients ∧
      (srv.lts (ds.map Delivery.session)).Reachable x ∧ n.server.Completes x := by
  obtain ⟨ds, hds, hforesees⟩ := exists_foresees hn
  obtain ⟨x, hx, hR⟩ :=
    (simulation hds).reachable (hn.restrict (fun _ _ _ hst h => h.of_step hst) hforesees)
  exact ⟨ds, x, hds, hx, hR⟩

/-- A client can write all its texts. -/
theorem reaches_written {i : ℕ} {l : Link α} (hl : n.links[i]? = some l) :
    (lts srv enc clients).Reaches n
      ⟨n.links.set i ⟨l.addr, l.written ++ l.unwritten, []⟩, n.server⟩ := by
  obtain ⟨links, x⟩ := n
  obtain ⟨addr, written, unwritten⟩ := l
  obtain ⟨hi, hget⟩ := List.getElem?_eq_some_iff.1 hl
  induction unwritten generalizing links written with
  | nil =>
    rw [List.append_nil, ← hget, List.set_getElem_self]
    exact .refl
  | cons t rest ih =>
    have hstep : Step srv enc ⟨links, x⟩ ⟨links.set i ⟨addr, written ++ [t], rest⟩, x⟩ :=
      .write hl rfl
    have hi' : i < (links.set i ⟨addr, written ++ [t], rest⟩).length := by rwa [List.length_set]
    have hget' := List.getElem_set_self hi'
    have hrest := ih (links.set i ⟨addr, written ++ [t], rest⟩) (written ++ [t])
      (List.getElem?_eq_some_iff.2 ⟨hi', hget'⟩) hi' hget'
    rw [List.set_set, List.append_assoc] at hrest
    exact .head hstep hrest

/-! ### Connections in the network -/

/-- The connections are records of the receive loop, in the network, too. -/
theorem isRecord (hn : (lts srv enc clients).Reachable n) {i : ℕ} {c : Conn ω}
    (hc : n.server.conns[i]? = some c) :
    c.IsRecord srv ∧ c.received = c.session.chunks.map Chunk.data := by
  obtain ⟨ds, x, -, hx, hcompletes⟩ := exists_server_run hn
  obtain ⟨c', hc', hcc'⟩ := hcompletes.exists_conn hc
  have hrecord := hcc'.isRecord ((recorded_of_reachable hx).conns c' (List.mem_of_getElem? hc'))
  have hreceived := hrecord.received_append
  rw [hcc'.arriving, List.map_nil, List.append_nil] at hreceived
  exact ⟨hrecord, hreceived⟩

/-- No chunk is known in advance. -/
theorem conn_arriving (hn : (lts srv enc clients).Reachable n) {i : ℕ} {c : Conn ω}
    (hc : n.server.conns[i]? = some c) : c.arriving = [] := by
  obtain ⟨ds, x, -, hx, hcompletes⟩ := exists_server_run hn
  obtain ⟨c', -, hcc'⟩ := hcompletes.exists_conn hc
  exact hcc'.arriving

/-- As long as the server has not raised, its loop went on after every chunk. -/
theorem next_of_not_raised
    (hdata : ∀ addr data, data ≠ [] → (srv.turn addr data).outcome ≠ .ok .leave)
    (hn : (lts srv enc clients).Reachable n) (hraised : ¬n.server.Raised) {i : ℕ} {c : Conn ω}
    (hc : n.server.conns[i]? = some c) :
    ∀ chunk ∈ c.session.chunks, (srv.turn c.addr chunk.data).outcome = .ok .next := by
  intro chunk hchunk
  have hreceived := (isRecord hn hc).2
  obtain ⟨ds, x, -, hx, hcompletes⟩ := exists_server_run hn
  obtain ⟨c', hc', hcc'⟩ := hcompletes.exists_conn hc
  rw [← hcc'.addr]
  refine (recorded_of_reachable hx).next_of_not_raised hdata
    (hcompletes.raised_iff.not.1 hraised) (List.mem_of_getElem? hc') ?_
  rw [hcc'.received_eq, hreceived]
  exact List.mem_map_of_mem hchunk

/-- As long as a connection is served, its loop has not been left. -/
theorem final_eq_none (hn : (lts srv enc clients).Reachable n) {c : Conn ω}
    (hphase : n.server.phase = .serving c) : c.final = none := by
  obtain ⟨ds, x, -, hx, hcompletes⟩ := exists_server_run hn
  have hphase' := hcompletes.phase
  rw [hphase] at hphase'
  generalize hq : x.phase = q at hphase'
  rcases hphase' with _ | hc
  rw [← hc.final]
  exact (recorded_of_reachable hx).serving _ hq

/-- Every connection has its link, to the same peer. -/
theorem exists_link (hn : (lts srv enc clients).Reachable n) {i : ℕ} {c : Conn ω}
    (hc : n.server.conns[i]? = some c) : ∃ l, n.links[i]? = some l ∧ c.addr = l.addr := by
  obtain ⟨ds, x, hds, hx, hcompletes⟩ := exists_server_run hn
  obtain ⟨c', hc', hcc'⟩ := hcompletes.exists_conn hc
  have hsession := State.getElem?_sessions hc'
  rw [(recorded_of_reachable hx).sessions, List.getElem?_map] at hsession
  obtain ⟨d, hd, hd'⟩ := Option.map_eq_some_iff.1 hsession
  obtain ⟨l, hl, hclient⟩ :=
    Option.map_eq_some_iff.1 ((client_eq hn hds i).trans (by rw [hd]; rfl))
  refine ⟨l, hl, ?_⟩
  rw [← hcc'.addr, Conn.addr, ← hd', Delivery.session_addr]
  exact (Prod.mk.inj hclient).1.symm

end Network

end LogService
