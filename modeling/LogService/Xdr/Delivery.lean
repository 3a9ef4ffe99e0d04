import LogService.Delivery
import LogService.Xdr.Client
import LogService.Xdr.Whole

/-!
# What the XDR server prints of the texts sent

The client writes what `xdr.Marshal` makes of every text: an XDR string, by the
assumption `hmarshal`. The server takes one string from every chunk `recv` returns
and drops the rest of it, so it prints the texts that were sent only as long as the
chunks deliver the messages one by one.

* `exactlyOnce_iff`: when, in every state, the texts printed are those whose
  messages have arrived;
* `lossless_iff`: when all texts are printed: if and only if the chunks are the
  messages.
-/

namespace LogService.Xdr

open Utf8 (Bytes)
open Framing (complete)

/-- The strings that have a representation: the length fits a word. -/
abbrev Text := { t : Bytes // t.length < 2 ^ 32 }

/-- What the client writes for a text. -/
def Text.message {ε : Type} (xdrMarshal : Bytes → Except ε Bytes) (t : Text) : Bytes :=
  Xdr.message xdrMarshal t.val

theorem Text.message_eq {ε : Type} {xdrMarshal : Bytes → Except ε Bytes}
    (hmarshal : ∀ t, t.length < 2 ^ 32 → xdrMarshal t = .ok (XdrString.encode t)) (t : Text) :
    t.message xdrMarshal = XdrString.encode t.val := by
  rw [Text.message, Xdr.message, hmarshal t.val t.2]
  rfl

variable {enc : Text → Bytes} (henc : ∀ t, enc t = XdrString.encode t.val)

include henc in
theorem message_ne_nil (t : Text) : enc t ≠ [] := by
  rw [henc]
  exact XdrString.encode_ne_nil t.val

include henc in
/-- No message goes on in another one. -/
theorem message_prefixFree : Framing.PrefixFree enc := by
  rintro t u ⟨more, hmore⟩
  rw [henc, henc] at hmore
  have hread := XdrString.read?_encode_append t.2 more
  rw [hmore, read?_encode u.2] at hread
  rw [henc, henc, Option.some.inj hread]

/-- What is written to a connection determines the texts sent on it. -/
theorem stream_message_injective {ε : Type} (xdrMarshal : Bytes → Except ε Bytes)
    (hmarshal : ∀ t, t.length < 2 ^ 32 → xdrMarshal t = .ok (XdrString.encode t)) :
    Function.Injective (Framing.stream (Text.message xdrMarshal)) := by
  intro ts us h
  have henc := Text.message_eq hmarshal
  have hmessages := (message_prefixFree henc).map_eq_of_stream_eq _ (message_ne_nil henc) h
  refine List.map_injective_iff.2 (fun t u htu => ?_) hmessages
  have hread := read?_encode t.2
  rw [← henc, htu, henc, read?_encode u.2] at hread
  exact Subtype.ext (Option.some.inj hread).symm

/-- With `xdr.Marshal` as it is documented. -/
theorem stream_marshalText_injective :
    Function.Injective (Framing.stream (Text.message marshalText)) :=
  stream_message_injective marshalText marshalText_eq

/-! ## Exactly once -/

/-- In every state in which the server has not raised, what it has printed of a
    connection are, in order, the texts whose messages have arrived. -/
def ExactlyOnce (ds : List (Delivery enc)) : Prop :=
  ∀ x, (server.lts (ds.map Delivery.session)).Reachable x → ¬x.Raised →
    ∀ (i : ℕ) (c : Conn Output) (d : Delivery enc), x.conns[i]? = some c → ds[i]? = some d →
      (printed c.actions).map Utf8.encode =
        (complete enc d.sent c.bytesReceived).map Subtype.val

/-- The messages arrive one by one: with every chunk the server gets through, the
    chunks so far have got past the end of as many messages, and not past that of one
    more, and the chunk starts with the length and the bytes of the last one's text. -/
def OnePerChunk (d : Delivery enc) : Prop :=
  ∀ l chunk more, d.chunks = l ++ chunk :: more → (∀ b ∈ l ++ [chunk], Unpackable b.data) →
    ∃ t, d.sent[l.length]? = some t ∧
      d.offset (l.length + 1) ≤ ((l ++ [chunk]).flatMap Chunk.data).length ∧
      (l.length + 1 < d.sent.length →
        ((l ++ [chunk]).flatMap Chunk.data).length < d.offset (l.length + 2)) ∧
      XdrString.word t.val.length ++ t.val <+: chunk.data

/-- The texts read from the chunks `l` are those whose messages have arrived
    with them. -/
def Agrees (d : Delivery enc) (l : List Chunk) : Prop :=
  (l.map fun chunk => Utf8.encode (text chunk.data)) = (d.completeAfter l).map Subtype.val

include henc in
theorem agrees_nil (d : Delivery enc) : Agrees d [] := by
  rw [Agrees, Delivery.completeAfter, List.flatMap_nil, List.length_nil,
    Framing.complete_zero (message_ne_nil henc)]
  rfl

/-- A further chunk agrees if it completes just one more message, and starts with the
    text of this one. -/
theorem agrees_append_iff {d : Delivery enc} {l : List Chunk} {chunk : Chunk}
    (hl : Agrees d l) (hchunk : Unpackable chunk.data) :
    Agrees d (l ++ [chunk]) ↔
      ∃ t, d.sent[l.length]? = some t ∧
        d.offset (l.length + 1) ≤ ((l ++ [chunk]).flatMap Chunk.data).length ∧
        (l.length + 1 < d.sent.length →
          ((l ++ [chunk]).flatMap Chunk.data).length < d.offset (l.length + 2)) ∧
        XdrString.word t.val.length ++ t.val <+: chunk.data := by
  obtain ⟨hlen, hstart, -⟩ := XdrString.read?_eq_some_iff.1 hchunk.read?_eq
  -- The texts of the chunks before are as many first texts.
  have hlength : (d.completeAfter l).length = l.length := by
    simpa using (congrArg List.length hl).symm
  have htake := Delivery.completeAfter_eq_take hlength
  have hsucc : ∀ hi : l.length < d.sent.length,
      (d.completeAfter (l ++ [chunk])).length = l.length + 1 →
      d.completeAfter (l ++ [chunk]) = d.completeAfter l ++ [d.sent[l.length]] := by
    intro hi hlength'
    rw [Delivery.completeAfter_eq_take hlength', htake, List.take_succ_eq_append_getElem hi]
  rw [Agrees, List.map_append, hl, List.map_singleton]
  constructor
  · intro h
    have hlength' : (d.completeAfter (l ++ [chunk])).length = l.length + 1 := by
      simpa [hlength] using (congrArg List.length h).symm
    obtain ⟨hi, hoffset, hnext⟩ := Delivery.completeAfter_length_iff.1 hlength'
    rw [hsucc hi hlength', List.map_append, List.append_cancel_left_eq] at h
    have heq : Utf8.encode (text chunk.data) = d.sent[l.length].val := (List.cons.inj h).1
    exact ⟨_, List.getElem?_eq_getElem hi, hoffset, hnext, heq ▸ hstart⟩
  · rintro ⟨t, ht, hoffset, hnext, hword⟩
    obtain ⟨hi, rfl⟩ := List.getElem?_eq_some_iff.1 ht
    have heq := XdrString.eq_of_isPrefix hlen d.sent[l.length].2 hstart hword
    rw [hsucc hi (Delivery.completeAfter_length_iff.2 ⟨hi, hoffset, hnext⟩), List.map_append, heq,
      List.map_singleton]

include henc in
/-- A connection's messages arrive one by one if and only if the texts agree after all
    the chunks the server gets through. -/
theorem onePerChunk_iff {d : Delivery enc} :
    OnePerChunk d ↔
      ∀ l more, d.chunks = l ++ more → (∀ b ∈ l, Unpackable b.data) → Agrees d l := by
  constructor
  · intro h l
    induction l using List.reverseRecOn with
    | nil => exact fun _ _ _ => agrees_nil henc d
    | append_singleton l chunk ih =>
      intro more hchunks hl
      rw [List.append_assoc] at hchunks
      refine (agrees_append_iff (ih _ hchunks ?_) ?_).2 (h l chunk more hchunks hl)
      · exact fun b hb => hl b (List.mem_append_left _ hb)
      · exact hl chunk (List.mem_append_right _ (List.mem_singleton_self chunk))
  · intro h l chunk more hchunks hl
    refine (agrees_append_iff (h l (chunk :: more) hchunks ?_) ?_).1
      (h (l ++ [chunk]) more (by rw [List.append_assoc]; exact hchunks) hl)
    · exact fun b hb => hl b (List.mem_append_left _ hb)
    · exact hl chunk (List.mem_append_right _ (List.mem_singleton_self chunk))

/-- What has been printed of a connection, and how much has been received of it,
    when all its chunks are ones the server gets through. -/
theorem printed_actions {c : Conn Output} (h : c.IsRecord server) {l : List Chunk}
    (hl : c.received = l.map Chunk.data) (hunpack : ∀ b ∈ l, Unpackable b.data) :
    (printed c.actions).map Utf8.encode = l.map fun chunk => Utf8.encode (text chunk.data) := by
  rw [h.actions_eq (by rw [turn_nil]), hl, List.flatMap_map, printed_flatMap _ hunpack,
    List.map_map]
  rfl

/-- The server prints the texts that have arrived if and only if, on every
    connection it gets to, those read from the chunks are those. -/
theorem exactlyOnce_iff_agrees {ds : List (Delivery enc)} :
    ExactlyOnce ds ↔ ∀ before d after, ds = before ++ d :: after →
      (∀ d' ∈ before, ∀ chunk ∈ d'.chunks, Unpackable chunk.data) →
      ∀ l more, d.chunks = l ++ more → (∀ b ∈ l, Unpackable b.data) → Agrees d l := by
  constructor
  · rintro h before d after rfl hbefore l more hchunks hl
    -- There is a state in which just `l` has been received of this connection.
    have hsessions : (before ++ d :: after).map Delivery.session =
        before.map Delivery.session ++ d.session :: after.map Delivery.session := by
      rw [List.map_append, List.map_cons]
    have hgoesOn : ∀ s ∈ before.map Delivery.session, server.GoesOn s := by
      intro s hs
      obtain ⟨d', hd', rfl⟩ := List.mem_map.1 hs
      exact goesOn_iff.2 (hbefore d' hd')
    obtain ⟨closed, c, hr, hclosed, hc, -, hreceived⟩ := reachable_serving hsessions hgoesOn
      (fun addr => by rw [turn_nil]) hchunks
      (fun chunk hchunk => turn_outcome_eq_next_iff.2 (hl chunk hchunk))
    have hrec := recorded_of_reachable hr
    have hlength : closed.length = before.length := by
      rw [← List.length_map Conn.session, hclosed, List.length_map]
    have hagrees := h _ hr (by rintro ⟨_, _, ⟨⟩⟩) before.length c d
      (by simp [State.conns, Phase.conn, hlength]) (by simp)
    rw [printed_actions (hrec.conns c (by simp [State.conns, Phase.conn])) hreceived hl,
      Conn.bytesReceived, hreceived, ← List.flatMap_def] at hagrees
    exact hagrees
  · intro h x hx hraised i c d hc hd
    have hrec := recorded_of_reachable hx
    have hmem : c ∈ x.conns := List.mem_of_getElem? hc
    have hsession : c.session = d.session := hrec.session_eq hc hd
    -- What has been received are the first chunks, and none of them has raised.
    obtain ⟨l, more, hchunks, hreceived⟩ := (hrec.conns c hmem).exists_chunks
    rw [hsession, Delivery.session_chunks] at hchunks
    have hunpack : ∀ b ∈ l, Unpackable b.data := by
      intro b hb
      refine turn_outcome_eq_next_iff.1
        (hrec.next_of_not_raised turn_outcome_ne_leave hraised hmem ?_)
      rw [hreceived]
      exact List.mem_map_of_mem hb
    have hbefore : ∀ d' ∈ ds.take i, ∀ chunk ∈ d'.chunks, Unpackable chunk.data := by
      intro d' hd'
      refine goesOn_iff.1 (hrec.goesOn_of_lt turn_outcome_ne_leave hc d'.session ?_)
      rw [← List.map_take]
      exact List.mem_map_of_mem hd'
    have hsplit : ds = ds.take i ++ d :: ds.drop (i + 1) := by
      obtain ⟨hi, rfl⟩ := List.getElem?_eq_some_iff.1 hd
      rw [List.cons_getElem_drop_succ, List.take_append_drop]
    have hagrees := h _ d _ hsplit hbefore l more hchunks hunpack
    rw [printed_actions (hrec.conns c hmem) hreceived hunpack, hagrees, Conn.bytesReceived,
      hreceived, ← List.flatMap_def]
    rfl

/-- The server prints exactly the texts that have arrived if and only if, on every
    connection it gets to, the messages arrive one by one. -/
theorem exactlyOnce_iff {ε : Type} (xdrMarshal : Bytes → Except ε Bytes)
    (hmarshal : ∀ t, t.length < 2 ^ 32 → xdrMarshal t = .ok (XdrString.encode t))
    (ds : List (Delivery (Text.message xdrMarshal))) :
    ExactlyOnce ds ↔ ∀ before d after, ds = before ++ d :: after →
      (∀ d' ∈ before, ∀ chunk ∈ d'.chunks, Unpackable chunk.data) → OnePerChunk d := by
  rw [exactlyOnce_iff_agrees]
  refine forall₅_congr fun before d after hds hbefore => ?_
  exact (onePerChunk_iff (Text.message_eq hmarshal)).symm

/-- The texts `a` and `b`, with their newlines, in a chunk each. -/
def apart : Delivery (Text.message marshalText) where
  addr := ⟨"127.0.0.1", 50000⟩
  sent := [⟨[0x61, 0x0a], by decide⟩, ⟨[0x62, 0x0a], by decide⟩]
  chunks := [⟨[0, 0, 0, 2, 0x61, 0x0a, 0, 0], by decide, by decide⟩,
    ⟨[0, 0, 0, 2, 0x62, 0x0a, 0, 0], by decide, by decide⟩]
  cut := by decide

theorem onePerChunk_apart : OnePerChunk apart := by
  intro l chunk more hchunks _
  rcases l with _ | ⟨a, _ | ⟨a', l⟩⟩
  · obtain ⟨rfl, -⟩ := List.cons.inj hchunks
    exact ⟨_, rfl, by decide, fun _ => by decide, by decide⟩
  · obtain ⟨rfl, htail⟩ := List.cons.inj hchunks
    obtain ⟨rfl, -⟩ := List.cons.inj htail
    exact ⟨_, rfl, by decide, fun hlt => absurd hlt (by decide), by decide⟩
  · -- There are only two chunks.
    have hlength := congrArg List.length hchunks
    rw [List.length_append, List.length_cons, List.length_cons, List.length_cons] at hlength
    change 2 = _ at hlength
    omega

/-- They are printed as they arrive. -/
theorem exactlyOnce_apart : ExactlyOnce [apart] := by
  refine (exactlyOnce_iff marshalText marshalText_eq [apart]).2 fun before d after hds _ => ?_
  rcases before with _ | ⟨d', before⟩
  · obtain ⟨rfl, -⟩ := List.cons.inj hds
    exact onePerChunk_apart
  · exact absurd (List.cons.inj hds).2.symm (by simp)

/-- The same texts, arriving together. -/
def together : Delivery (Text.message marshalText) where
  addr := ⟨"127.0.0.1", 50000⟩
  sent := [⟨[0x61, 0x0a], by decide⟩, ⟨[0x62, 0x0a], by decide⟩]
  chunks := [⟨[0, 0, 0, 2, 0x61, 0x0a, 0, 0, 0, 0, 0, 2, 0x62, 0x0a, 0, 0], by decide, by decide⟩]
  cut := by decide

theorem unpackable_together : ∀ b ∈ together.chunks, Unpackable b.data := by
  intro b hb
  obtain rfl := List.mem_singleton.1 hb
  exact unpackable_iff.2 ⟨['a', '\n'], by decide⟩

/-- From their chunk only the first of them is read. -/
theorem not_agrees_together : ¬Agrees together together.chunks := by
  intro h
  have hlength := congrArg List.length h
  rw [List.length_map, List.length_map] at hlength
  exact absurd hlength (by decide)

/-- So only the first of them is printed. -/
theorem not_exactlyOnce_together : ¬ExactlyOnce [together] := fun h =>
  not_agrees_together (exactlyOnce_iff_agrees.1 h [] together [] rfl (by rintro _ ⟨⟩)
    together.chunks [] (List.append_nil _).symm unpackable_together)

/-! ## All of them -/

/-- Chunks that are the representations of texts in UTF-8 are read as these texts. -/
theorem unpackable_of_chunks_eq {l : List Chunk} {ts : List Bytes}
    (hl : l.map Chunk.data = ts.map XdrString.encode)
    (hts : ∀ t ∈ ts, t.length < 2 ^ 32 ∧ Utf8.Valid t) :
    (∀ b ∈ l, Unpackable b.data) ∧ (l.map fun chunk => Utf8.encode (text chunk.data)) = ts := by
  have hread : ∀ t ∈ ts, ∃ cs, t = Utf8.encode cs ∧
      XdrString.read? (XdrString.encode t) = some (Utf8.encode cs) := by
    intro t ht
    obtain ⟨hlt, cs, hcs⟩ := hts t ht
    exact ⟨cs, hcs, by rw [read?_encode hlt, hcs]⟩
  have htexts : ∀ t ∈ ts, Utf8.encode (text (XdrString.encode t)) = t := by
    intro t ht
    obtain ⟨cs, heq, hcs⟩ := hread t ht
    rw [text_eq hcs, heq]
  constructor
  · intro b hb
    obtain ⟨t, ht, heq⟩ := List.mem_map.1 (hl ▸ List.mem_map_of_mem hb)
    obtain ⟨cs, -, hcs⟩ := hread t ht
    exact unpackable_iff.2 ⟨cs, heq ▸ hcs⟩
  · calc (l.map fun chunk => Utf8.encode (text chunk.data))
        = (l.map Chunk.data).map fun b => Utf8.encode (text b) := by
          rw [List.map_map]
          rfl
      _ = ts.map fun t => Utf8.encode (text (XdrString.encode t)) := by
          rw [hl, List.map_map]
          rfl
      _ = ts := (List.map_congr_left htexts).trans (List.map_id ts)

/-- The server receives all the chunks of the connection, and its close, without
    raising, and all that it has printed then, back in `accept`, are the texts sent. -/
def Lossless (d : Delivery enc) : Prop :=
  ∃ x, (server.lts [d.session]).Reachable x ∧ x.upcoming = [] ∧ x.phase = .accepting ∧
    (printed (server.output x)).map Utf8.encode = d.sent.map Subtype.val

/-- So it is if the server gets through all the chunks, and the texts read from them are
    those sent. -/
theorem lossless_iff_unpackable {d : Delivery enc} :
    Lossless d ↔ (∀ b ∈ d.chunks, Unpackable b.data) ∧
      (d.chunks.map fun chunk => Utf8.encode (text chunk.data)) = d.sent.map Subtype.val := by
  obtain ⟨hprinted, hnone⟩ := run_eq [d.session]
  rw [List.flatMap_singleton, Delivery.session_chunks] at hprinted
  have hunpack : (server.run [d.session]).2 = none ↔ ∀ b ∈ d.chunks, Unpackable b.data := by
    rw [hnone, List.forall_mem_singleton, Delivery.session_chunks]
  have htexts : (∀ b ∈ d.chunks, Unpackable b.data) →
      (printed (server.run [d.session]).1).map Utf8.encode =
        d.chunks.map fun chunk => Utf8.encode (text chunk.data) := by
    intro hall
    rw [hprinted, texts_of_unpackable hall, List.map_map]
    rfl
  constructor
  · rintro ⟨⟨upcoming, closed, phase⟩, hx, rfl, rfl, hsent⟩
    -- Nothing remains to be done, so all has been.
    obtain ⟨hdone, hexception⟩ := Server.run_eq turn_nil_ne_next hx
    have hall := hunpack.1 hexception.symm
    rw [← List.append_nil (server.output _)] at hsent
    exact ⟨hall, by rw [← htexts hall, ← hdone]; exact hsent⟩
  · rintro ⟨hall, hsent⟩
    obtain ⟨hreachable, hhalted, -⟩ := Server.runs_eq turn_nil_ne_next [d.session]
    have hinit : (server.lts [d.session]).Reachable _ := .init rfl
    obtain ⟨-, y, hr, hy⟩ := hreachable _ hinit
    obtain ⟨hdone, hserved, -⟩ := hhalted y (hinit.reaches hr) hy
    obtain ⟨hupcoming, hphase⟩ := hserved (hunpack.2 hall)
    exact ⟨y, hinit.reaches hr, hupcoming, hphase, by rw [hdone, htexts hall, hsent]⟩

include henc in
/-- If the texts read from all the chunks are those sent, the chunks are the
    messages: there are as many, and none is shorter than its message. -/
theorem chunks_eq_of_agree {d : Delivery enc} (hunpack : ∀ b ∈ d.chunks, Unpackable b.data)
    (hsent : (d.chunks.map fun chunk => Utf8.encode (text chunk.data)) =
      d.sent.map Subtype.val) :
    d.chunks.map Chunk.data = d.sent.map fun t => XdrString.encode t.val := by
  have hforall : List.Forall₂ (fun (chunk : Chunk) (t : Text) => Unpackable chunk.data ∧
      Utf8.encode (text chunk.data) = t.val) d.chunks d.sent := by
    refine (List.forall₂_and_left _ _).2 ⟨hunpack, ?_⟩
    rwa [← List.forall₂_eq_eq_eq, List.forall₂_map_left_iff, List.forall₂_map_right_iff] at hsent
  -- Together the chunks are as long as the messages, so each of them is.
  refine Framing.eq_of_flatten_eq ?_ ?_
  · rw [← List.flatMap_def, ← List.flatMap_def, d.cut, Framing.stream]
    exact List.flatMap_congr fun t _ => henc t
  · rw [List.forall₂_map_left_iff, List.forall₂_map_right_iff]
    refine hforall.imp fun chunk t ⟨hchunk, ht⟩ => ?_
    rw [← ht]
    exact XdrString.encode_length_le_of_read? hchunk.read?_eq

include henc in
/-- A lossless connection is one whose chunks are the messages, of texts that
    are UTF-8. -/
theorem lossless_iff_chunks_eq {d : Delivery enc} :
    Lossless d ↔ (∀ t ∈ d.sent, Utf8.Valid t.val) ∧
      d.chunks.map Chunk.data = d.sent.map fun t => XdrString.encode t.val := by
  rw [lossless_iff_unpackable]
  constructor
  · rintro ⟨hunpack, hsent⟩
    refine ⟨fun t ht => ?_, chunks_eq_of_agree henc hunpack hsent⟩
    obtain ⟨chunk, -, hchunk⟩ := List.mem_map.1 (hsent ▸ List.mem_map_of_mem ht)
    exact ⟨text chunk.data, hchunk.symm⟩
  · rintro ⟨hvalid, hchunks⟩
    refine unpackable_of_chunks_eq (by rw [hchunks, List.map_map]; rfl) fun b hb => ?_
    obtain ⟨t, ht, rfl⟩ := List.mem_map.1 hb
    exact ⟨t.2, hvalid t ht⟩

/-- Exactly when all texts are delivered; in particular, none of more than 1020
    bytes ever is. -/
theorem lossless_iff {ε : Type} (xdrMarshal : Bytes → Except ε Bytes)
    (hmarshal : ∀ t, t.length < 2 ^ 32 → xdrMarshal t = .ok (XdrString.encode t))
    (d : Delivery (Text.message xdrMarshal)) :
    (Lossless d ↔ (∀ t ∈ d.sent, Utf8.Valid t.val) ∧
      d.chunks.map Chunk.data = d.sent.map fun t => XdrString.encode t.val) ∧
    ((∃ t ∈ d.sent, 1020 < t.val.length) → ¬Lossless d) := by
  have hiff := lossless_iff_chunks_eq (Text.message_eq hmarshal) (d := d)
  refine ⟨hiff, ?_⟩
  rintro ⟨t, ht, hlong⟩ h
  obtain ⟨chunk, -, hchunk⟩ := List.mem_map.1 ((hiff.1 h).2 ▸ List.mem_map_of_mem ht)
  have hlength := chunk.length_le
  rw [hchunk, XdrString.encode_length, recvSize] at hlength
  have := XdrString.le_padded t.val.length
  omega

/-- The texts `a` and `b`, in a chunk each. -/
theorem lossless_apart : Lossless apart := by
  refine (lossless_iff marshalText marshalText_eq apart).1.2 ⟨fun t ht => ?_, rfl⟩
  rcases List.mem_cons.1 ht with rfl | ht
  · exact ⟨['a', '\n'], rfl⟩
  · obtain rfl := List.mem_singleton.1 ht
    exact ⟨['b', '\n'], rfl⟩

end LogService.Xdr
