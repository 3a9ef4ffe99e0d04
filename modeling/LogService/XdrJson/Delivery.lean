import LogService.Delivery
import LogService.XdrJson.Server

/-!
# What the JSON server saves of the texts sent

A chunk that is not a message is refused as a whole, and ends the process. So
whatever the chunks are, what has been inserted are the first texts sent, each
once, and nothing else. (Of a second connection, there is nothing to be said: the
server ends at the close of the first one.)

* `saved_received`: chunks that are saved, from the first on, are the first
  messages;
* `exists_received_eq`, `delivered`: what has been inserted while a connection was
  served, in every state.
-/

namespace LogService.XdrJson

open Utf8 (Bytes)

variable {mydb : MySql} {v : Go.Version}

/-- Chunks that are saved, from the first on, are the first messages. -/
theorem saved_received {bs : List Bytes} {sent : List Bytes}
    (hstream : bs.flatten <+: Framing.stream (message v) sent)
    (hsaved : ∀ b ∈ bs, ∃ log, Saved mydb b log) :
    bs.length ≤ sent.length ∧ bs = (sent.take bs.length).map (message v) := by
  induction bs generalizing sent with
  | nil => exact ⟨Nat.zero_le _, rfl⟩
  | cons b bs ih =>
    rw [List.forall_mem_cons] at hsaved
    obtain ⟨⟨log, hb⟩, hbs⟩ := hsaved
    obtain ⟨rest, hrest⟩ := hstream
    rw [List.flatten_cons, List.append_assoc] at hrest
    obtain ⟨t, sent, rfl, rfl⟩ := eq_message_of_saved hb hrest
    rw [Framing.stream_cons] at hrest
    obtain ⟨hlength, heq⟩ := ih ⟨rest, List.append_cancel_left hrest⟩ hbs
    rw [List.length_cons, List.length_cons, List.take_succ_cons, List.map_cons, ← heq]
    exact ⟨Nat.succ_le_succ hlength, rfl⟩

/-- The rows of chunks that are saved and messages. -/
theorem rows_flatMap (mydb : MySql) (addr : Address) (ts : List Bytes) :
    rows ((ts.map (message v)).flatMap fun b => ((server mydb).turn addr b).actions) =
      ts.map (row addr) := by
  induction ts with
  | nil => rfl
  | cons t ts ih =>
    rw [List.map_cons, List.flatMap_cons, rows_append, ih,
      turn_of_saved addr (saved_message mydb t)]
    rfl

/-- A connection's chunks are saved, except for the last one perhaps. -/
theorem exists_saved {c : Conn Action} (h : c.IsRecord (server mydb)) :
    ∃ bs last, c.received = bs ++ last ∧ (∀ b ∈ bs, ∃ log, Saved mydb b log) ∧
      (last = [] ∨ ∃ b, last = [b] ∧ ∀ log, ¬Saved mydb b log) := by
  rcases List.eq_nil_or_concat' c.received with hnil | ⟨bs, b, hbs⟩
  · exact ⟨[], [], hnil, fun _ hb => absurd hb List.not_mem_nil, .inl rfl⟩
  · have hsaved : ∀ b' ∈ bs, ∃ log, Saved mydb b' log := by
      intro b' hb'
      obtain ⟨pre, post, rfl⟩ := List.append_of_mem hb'
      have hnext : ((server mydb).turn c.addr b').outcome = .ok .next := by
        cases post with
        | nil => exact h.next_of_received (by rw [hbs, List.append_assoc]; rfl)
        | cons b₁ post => exact h.next_of_received (by rw [hbs, List.append_assoc]; rfl)
      exact turn_outcome_eq_next_iff.1 hnext
    by_cases hb : ∃ log, Saved mydb b log
    · refine ⟨bs ++ [b], [], by rw [hbs, List.append_nil], fun b' hb' => ?_, .inl rfl⟩
      rcases List.mem_append.1 hb' with hb' | hb'
      · exact hsaved b' hb'
      · rwa [List.mem_singleton.1 hb']
    · exact ⟨bs, [b], hbs, hsaved, .inr ⟨b, rfl, not_exists.1 hb⟩⟩

/-- The texts inserted are the first ones, the message of each has been received as
    one chunk, and nothing else but a last chunk that is not saved. -/
theorem exists_received_eq {c : Conn Action} (h : c.IsRecord (server mydb)) {sent : List Bytes}
    (hstream : c.received.flatten <+: Framing.stream (message v) sent) :
    ∃ k ≤ sent.length, ∃ last, rows c.actions = (sent.take k).map (row c.addr) ∧
      c.received = (sent.take k).map (message v) ++ last ∧
      (last = [] ∨ ∃ b, last = [b] ∧ ∀ log, ¬Saved mydb b log) := by
  obtain ⟨bs, last, hreceived, hsaved, hlast⟩ := exists_saved h
  obtain ⟨hlength, hbs⟩ := saved_received
    ((List.prefix_append _ _).trans (by rwa [hreceived, List.flatten_append] at hstream)) hsaved
  rw [hbs] at hreceived
  refine ⟨bs.length, hlength, last, ?_, hreceived, hlast⟩
  rw [h.actions_eq (by rw [turn_nil]), hreceived, List.flatMap_append, rows_append, rows_flatMap]
  -- No row is inserted of the last chunk, if it made the loop raise.
  rcases hlast with rfl | ⟨b, rfl, hb⟩
  · exact List.append_nil _
  · obtain ⟨actions, e, hturn, hnone⟩ := turn_of_not_saved c.addr hb
    rw [List.flatMap_singleton, hturn, hnone, List.append_nil]

/-- All that has been received was processed if and only if every chunk is a
    message, and then these are the messages of the texts inserted. -/
theorem exists_rows_eq {c : Conn Action} (h : c.IsRecord (server mydb)) {sent : List Bytes}
    (hstream : c.received.flatten <+: Framing.stream (message v) sent) :
    ∃ k ≤ sent.length, rows c.actions = (sent.take k).map (row c.addr) ∧
      (c.Processed ↔ ∀ b ∈ c.received, ∃ t ∈ sent, b = message v t) ∧
      (c.Processed → c.received = (sent.take k).map (message v)) := by
  obtain ⟨k, hk, last, hrows, hreceived, hlast⟩ := exists_received_eq h hstream
  have hprocessed : c.Processed → c.received = (sent.take k).map (message v) := by
    intro hp
    rw [h.processed_iff, hreceived] at hp
    rcases hlast with rfl | ⟨b, rfl, hb⟩
    · rw [hreceived, List.append_nil]
    · obtain ⟨log, hlog⟩ := turn_outcome_isOk_iff.1 (hp b (by simp))
      exact absurd hlog (hb log)
  refine ⟨k, hk, hrows, ⟨fun hp b hb => ?_, fun hmessages => ?_⟩, hprocessed⟩
  · rw [hprocessed hp] at hb
    obtain ⟨t, ht, rfl⟩ := List.mem_map.1 hb
    exact ⟨t, List.mem_of_mem_take ht, rfl⟩
  · rw [h.processed_iff]
    intro b hb
    obtain ⟨t, -, rfl⟩ := hmessages b hb
    exact turn_outcome_isOk_iff.2 ⟨_, saved_message mydb t⟩

/-- In every state, what has been inserted while a connection was served are the
    first texts sent on it, each with the address of the peer. All that has
    been received was processed if and only if every chunk is a message, and
    then these are the messages of the texts inserted. -/
theorem delivered (mydb : MySql) (ds : List (Delivery (message v))) :
    ∀ x, ((server mydb).lts (ds.map Delivery.session)).Reachable x →
      ∀ (i : ℕ) (c : Conn Action) (d : Delivery (message v)), x.conns[i]? = some c →
        ds[i]? = some d →
        ∃ k ≤ d.sent.length, rows c.actions = (d.sent.take k).map (row d.addr) ∧
          (c.Processed ↔ ∀ b ∈ c.received, ∃ t ∈ d.sent, b = message v t) ∧
          (c.Processed → c.received = (d.sent.take k).map (message v)) ∧
          ∀ text, row d.addr (Utf8.encode text) = ⟨d.addr.ip, .str (Python.Str.ofText text)⟩ := by
  intro x hx i c d hc hd
  have hrec := recorded_of_reachable hx
  have h := hrec.conns c (List.mem_of_getElem? hc)
  have hsession : c.session = d.session := hrec.session_eq hc hd
  have haddr : c.addr = d.addr := by rw [Conn.addr, hsession, Delivery.session_addr]
  obtain ⟨l, more, hchunks, hreceived⟩ := h.exists_chunks
  have hstream : c.received.flatten <+: Framing.stream (message v) d.sent := by
    rw [hsession, Delivery.session_chunks] at hchunks
    rw [← d.cut, hchunks, hreceived, List.flatMap_append, ← List.flatMap_def]
    exact List.prefix_append _ _
  obtain ⟨k, hk, hrows, hiff, hprocessed⟩ := exists_rows_eq h hstream
  rw [haddr] at hrows
  exact ⟨k, hk, hrows, hiff, hprocessed, row_encode d.addr⟩

/-- The texts `a` and `b`, with their newlines: the message of `a` arrives in one chunk,
    and that of `b` in two. -/
def cutOff : Delivery (message Go.go121) where
  addr := ⟨"127.0.0.1", 50000⟩
  sent := [[0x61, 0x0a], [0x62, 0x0a]]
  chunks := [
    ⟨message Go.go121 [0x61, 0x0a], message_ne_nil _, (length_message_le _).trans (by decide)⟩,
    ⟨(message Go.go121 [0x62, 0x0a]).take 3, by
      have hle : 10 ≤ (message Go.go121 [0x62, 0x0a]).length := le_length_message _
      rw [← List.length_pos_iff, List.length_take]
      omega, (List.length_take_le _ _).trans (by decide)⟩,
    ⟨(message Go.go121 [0x62, 0x0a]).drop 3, by
      have hle : 10 ≤ (message Go.go121 [0x62, 0x0a]).length := le_length_message _
      rw [← List.length_pos_iff, List.length_drop]
      omega, (List.drop_sublist _ _).length_le.trans ((length_message_le _).trans (by decide))⟩]
  cut := by simp [Framing.stream]

/-- The first part of a message is not saved. -/
theorem not_saved_take (t : Bytes) (log : Python.Json) :
    ¬Saved mydb ((message v t).take 3) log := by
  intro h
  have hstream : (message v t).take 3 ++ (message v t).drop 3 = Framing.stream (message v) [t] := by
    simp
  obtain ⟨t', rest, ht, heq⟩ := eq_message_of_saved h hstream
  obtain ⟨rfl, -⟩ := List.cons.inj ht
  have hlength := congrArg List.length heq
  have hle : 10 ≤ (message v t).length := le_length_message t
  rw [List.length_take] at hlength
  omega

/-- The text `a` is saved, and the server raises at the first part of the message of
    `b`, which is not. -/
theorem delivered_cutOff :
    ∃ x c e, ((server .strings).lts [cutOff.session]).Reachable x ∧ x.phase = .raised c e ∧
      rows c.actions = [row cutOff.addr [0x61, 0x0a]] ∧ ¬c.Processed := by
  have hsaved := turn_of_saved cutOff.addr (saved_message (v := Go.go121) .strings [0x61, 0x0a])
  have hpart : ∀ log, ¬Saved .strings ((message Go.go121 [0x62, 0x0a]).take 3) log :=
    not_saved_take _
  obtain ⟨actions, e, hturn, hnone⟩ := turn_of_not_saved cutOff.addr hpart
  have hx : ((server .strings).lts [cutOff.session]).Reachable _ :=
    .step (.step (.step (.init rfl) .accept) (.next (congrArg Turn.outcome hsaved)))
      (.raise (e := e) (congrArg Turn.outcome hturn))
  obtain ⟨k, -, -, hprocessed, -⟩ := delivered .strings [cutOff] _ hx 0 _ cutOff rfl rfl
  refine ⟨_, _, e, hx, rfl, ?_, fun hp => ?_⟩
  · change rows ([(server .strings).turn cutOff.addr (message Go.go121 [0x61, 0x0a]),
      (server .strings).turn cutOff.addr ((message Go.go121 [0x62, 0x0a]).take 3)].flatMap
        Turn.actions) = _
    rw [hsaved, hturn, List.flatMap_cons, List.flatMap_singleton, rows_append, hnone]
    rfl
  · -- The part of a message has been received, and is no message.
    obtain ⟨t, -, ht⟩ := hprocessed.1 hp ((message Go.go121 [0x62, 0x0a]).take 3) <| by
      refine List.mem_filter.2 ⟨List.mem_map.2 ⟨(server .strings).turn cutOff.addr _, ?_,
        Server.turn_data _ _ _⟩, by simp [message_ne_nil]⟩
      exact List.mem_cons_of_mem _ (List.mem_singleton_self _)
    exact hpart _ (ht ▸ saved_message .strings t)

end LogService.XdrJson
