import LogService.Network

/-!
# Clients that wait

The servers take what `recv` returns for a message. So it is, as long as every
client waits until its last message has been received before it writes the next
one, and every message is received as a whole: then nothing but one message is
ever on its way (`Network.Paced`), and the chunks received are the messages
written (`chunks_eq`).
-/

namespace LogService

open Utf8 (Bytes)

namespace Network

variable {α ω : Type} {srv : Server ω} {enc : α → Bytes} {clients : List (Address × List α)}

/-- On no link there is more than one message on its way, or part of one. -/
def Paced (enc : α → Bytes) (n : Network α ω) : Prop :=
  ∀ (i : ℕ) (l : Link α) (s : Session), n.links[i]? = some l → n.server.sessions[i]? = some s →
    ∃ ts last, l.written = ts ++ last ∧ last.length ≤ 1 ∧
      s.chunks.flatMap Chunk.data = Framing.stream enc ts

/-- The network, with clients that wait. -/
def paced (srv : Server ω) (enc : α → Bytes) (clients : List (Address × List α)) :
    Lts (Network α ω) :=
  (lts srv enc clients).restrict (Paced enc)

/-- The chunks received of a link are messages written to it, from the first on. -/
theorem exists_chunks_eq (henc : ∀ t, enc t ≠ []) {n : Network α ω}
    (hn : (paced srv enc clients).Reachable n) {i : ℕ} {l : Link α} {s : Session}
    (hl : n.links[i]? = some l) (hs : n.server.sessions[i]? = some s) :
    ∃ ts, ts <+: l.written ∧ s.chunks.map Chunk.data = ts.map enc := by
  induction hn generalizing l s with
  | init h =>
    obtain ⟨rfl, -⟩ := h
    simp only [State.sessions, State.conns, Phase.conn, Option.toList_none, List.append_nil,
      List.map_nil, List.nil_append, List.getElem?_map, Option.map_eq_some_iff] at hs
    obtain ⟨cl, -, rfl⟩ := hs
    exact ⟨[], List.nil_prefix, rfl⟩
  | step hn hst ih =>
    have hpaced := hn.mem_of_restrict
    obtain ⟨hst, hpaced'⟩ := hst
    cases hst with
    | @write links x j l' t rest hl' hunwritten =>
      by_cases hj : j = i
      · subst hj
        rw [List.getElem?_set_self (List.getElem?_eq_some_iff.1 hl').1] at hl
        cases hl
        obtain ⟨ts, hts, hchunks⟩ := ih hl' hs
        exact ⟨ts, hts.trans (List.prefix_append _ _), hchunks⟩
      · rw [List.getElem?_set_ne hj] at hl
        exact ih hl hs
    | accept _ hst => exact ih hl (hst.sessions_eq ▸ hs)
    | @recv links rest closed c y l' chunk hl' hwritten hst =>
      by_cases hi : closed.length = i
      · subst hi
        have hc := State.getElem?_sessions (getElem?_conns rest closed c)
        obtain ⟨ts, hts, hchunks⟩ := ih hl hc
        have hstream : c.session.chunks.flatMap Chunk.data = Framing.stream enc ts := by
          rw [List.flatMap_def, hchunks, ← List.flatMap_def, Framing.stream]
        -- Before the chunk, at most one message was on its way; it has arrived now.
        obtain ⟨ts₀, last₀, hwritten₀, hlast₀, hstream₀⟩ := hpaced _ l c.session hl hc
        obtain ⟨ts₁, last₁, hwritten₁, -, hstream₁⟩ := hpaced' _ l s hl hs
        rw [sessions_feed hst, List.getElem?_set_self (List.getElem?_eq_some_iff.1 hc).1] at hs
        cases hs
        have hprefix₀ : ts₀ <+: l.written := hwritten₀ ▸ List.prefix_append _ _
        have hprefix₁ : ts₁ <+: l.written := hwritten₁ ▸ List.prefix_append _ _
        obtain ⟨us₀, rfl, hus₀⟩ := Framing.exists_of_stream_eq_append enc henc hts hprefix₀
          (show Framing.stream enc ts₀ = Framing.stream enc ts ++ [] by
            rw [List.append_nil, ← hstream₀, hstream])
        obtain ⟨us₁, rfl, hus₁⟩ := Framing.exists_of_stream_eq_append enc henc hts hprefix₁
          (show Framing.stream enc ts₁ = Framing.stream enc ts ++ chunk.data by
            rw [← hstream₁, ← hstream, Conn.feed, List.flatMap_append, List.flatMap_singleton])
        obtain rfl : us₀ = [] := (Framing.stream_eq_nil enc henc).1 hus₀.symm
        have hlength := congrArg List.length (hwritten₀.symm.trans hwritten₁)
        simp only [List.length_append, List.length_nil] at hlength
        cases us₁ with
        | nil => exact absurd hus₁ chunk.ne_nil
        | cons t us =>
          obtain rfl : us = [] := by
            rw [List.length_cons] at hlength
            exact List.length_eq_zero_iff.1 (by omega)
          refine ⟨ts ++ [t], hprefix₁, ?_⟩
          rw [Conn.feed, List.map_append, hchunks, List.map_append, List.map_singleton, hus₁,
            Framing.stream_cons, Framing.stream_nil, List.append_nil, List.map_singleton]
      · rw [sessions_feed hst, List.getElem?_set_ne hi] at hs
        exact ih hl hs
    | eof _ _ _ hst => exact ih hl (hst.sessions_eq ▸ hs)

/-- They are all of the messages written, but for the last one perhaps. -/
theorem chunks_eq (henc : ∀ t, enc t ≠ []) {n : Network α ω}
    (hn : (paced srv enc clients).Reachable n) {i : ℕ} {l : Link α} {s : Session}
    (hl : n.links[i]? = some l) (hs : n.server.sessions[i]? = some s) :
    ∃ ts last, l.written = ts ++ last ∧ last.length ≤ 1 ∧ s.chunks.map Chunk.data = ts.map enc := by
  obtain ⟨ts, hts, hchunks⟩ := exists_chunks_eq henc hn hl hs
  obtain ⟨ts₀, last, hwritten, hlast, hstream⟩ := hn.mem_of_restrict i l s hl hs
  obtain ⟨us, rfl, hus⟩ := Framing.exists_of_stream_eq_append enc henc hts
    (hwritten ▸ List.prefix_append _ _) (show Framing.stream enc ts₀ = Framing.stream enc ts ++ [] by
      rw [List.append_nil, ← hstream, List.flatMap_def, hchunks, ← List.flatMap_def,
        Framing.stream])
  obtain rfl : us = [] := (Framing.stream_eq_nil enc henc).1 hus.symm
  rw [List.append_nil] at hwritten
  exact ⟨ts, last, hwritten, hlast, hchunks⟩

end Network

end LogService
