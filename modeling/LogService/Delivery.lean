import LogService.Framing
import LogService.Server.Runs

/-!
# Deliveries

A client turns texts into messages and writes them to its connection, one after
another; the connection delivers the bytes, in order, but cut into chunks as it
pleases. A `Delivery` is what the two ends see of one connection: the texts sent,
and the chunks received.
-/

namespace LogService

open Utf8 (Bytes)

/-- All bytes can arrive in chunks, e.g., one by one. -/
theorem exists_chunks (bs : Bytes) : ∃ chunks : List Chunk, chunks.flatMap Chunk.data = bs := by
  obtain ⟨chunks, hcut⟩ := Framing.exists_isCutting (show 0 < recvSize by decide) bs
  refine ⟨chunks.attach.map fun c => ⟨c.1, hcut.ne_nil c.1 c.2, hcut.length_le c.1 c.2⟩, ?_⟩
  rw [List.flatMap_map, List.flatMap_def, List.attach_map_subtype_val, hcut.flatten]

/-- The texts `sent` on a connection, each as the message `enc` makes of it,
    and a way of cutting the stream into chunks. -/
structure Delivery {α : Type} (enc : α → Bytes) where
  addr : Address
  sent : List α
  chunks : List Chunk
  cut : chunks.flatMap Chunk.data = Framing.stream enc sent

namespace Delivery

variable {α : Type} {enc : α → Bytes} {ω : Type} {srv : Server ω}

/-- The connection, as the server sees it. -/
def session (d : Delivery enc) : Session := ⟨d.addr, d.chunks⟩

@[simp] theorem session_addr (d : Delivery enc) : d.session.addr = d.addr := rfl

@[simp] theorem session_chunks (d : Delivery enc) : d.session.chunks = d.chunks := rfl

/-- The texts whose messages are complete when the chunks `l` have arrived. -/
def completeAfter (d : Delivery enc) (l : List Chunk) : List α :=
  Framing.complete enc d.sent (l.flatMap Chunk.data).length

/-- Where the `n`-th message starts in the stream, from 0 on, and where the one before
    ends. -/
def offset (d : Delivery enc) (n : ℕ) : ℕ := (Framing.stream enc (d.sent.take n)).length

/-- They are `k` when the chunks have got past the end of the `k`-th message, and not
    past that of the next one. -/
theorem completeAfter_length_iff {d : Delivery enc} {l : List Chunk} {k : ℕ} :
    (d.completeAfter l).length = k ↔ k ≤ d.sent.length ∧
      d.offset k ≤ (l.flatMap Chunk.data).length ∧
      (k < d.sent.length → (l.flatMap Chunk.data).length < d.offset (k + 1)) :=
  Framing.complete_length_eq_iff

/-- And they are the first ones. -/
theorem completeAfter_eq_take {d : Delivery enc} {l : List Chunk} {k : ℕ}
    (h : (d.completeAfter l).length = k) : d.completeAfter l = d.sent.take k := by
  rw [← h]
  exact List.prefix_iff_eq_take.1 (Framing.complete_isPrefix _ _)

end Delivery

/-- The connections of a state are the deliveries the server runs on, in order. -/
theorem State.Recorded.session_eq {α ω : Type} {enc : α → Bytes} {srv : Server ω}
    {ds : List (Delivery enc)} {x : State ω} (h : x.Recorded srv (ds.map Delivery.session)) {i : ℕ}
    {c : Conn ω} {d : Delivery enc} (hc : x.conns[i]? = some c) (hd : ds[i]? = some d) :
    c.session = d.session := by
  have hget := State.getElem?_sessions hc
  rw [h.sessions, List.getElem?_map, hd, Option.map_some] at hget
  exact (Option.some.inj hget).symm

end LogService
