import LogService.Server.Whole
import LogService.Xdr.Server

/-!
# Whole runs of the XDR server

Whoever connects and whatever is sent: the server prints the text that each chunk
starts with, connection after connection, up to the first chunk that starts with
none, where it raises.
-/

namespace LogService.Xdr

open Utf8 (Bytes)
open Python

/-- The text the bytes start with. -/
def text? (data : Bytes) : Option (List Char) := (XdrString.read? data).bind Utf8.decode?

/-- The texts of the chunks, up to the first chunk that starts with none. -/
def texts : List Chunk → List (List Char)
  | [] => []
  | chunk :: more =>
    match text? chunk.data with
    | none => []
    | some text => text :: texts more

theorem text?_of_unpackable {data : Bytes} (h : Unpackable data) :
    text? data = some (text data) := by
  rw [text?, h.read?_eq, Option.bind_some, Utf8.decode?_encode]

theorem text?_of_not_unpackable {data : Bytes} (h : ¬Unpackable data) : text? data = none := by
  by_contra hne
  obtain ⟨cs, hcs⟩ := Option.ne_none_iff_exists'.1 hne
  obtain ⟨t, ht, hdecode⟩ := Option.bind_eq_some_iff.1 hcs
  exact h (unpackable_iff.2 ⟨cs, by rw [ht, Utf8.decode?_eq_some_iff.1 hdecode]⟩)

/-- Of chunks that all start with a text, these are the texts. -/
theorem texts_of_unpackable {l : List Chunk} (hl : ∀ chunk ∈ l, Unpackable chunk.data) :
    texts l = l.map fun chunk => text chunk.data := by
  induction l with
  | nil => rfl
  | cons chunk l ih =>
    rw [List.forall_mem_cons] at hl
    rw [texts, text?_of_unpackable hl.1, ih hl.2]
    rfl

theorem texts_append_of_unpackable {l l' : List Chunk} (hl : ∀ chunk ∈ l, Unpackable chunk.data) :
    texts (l ++ l') = texts l ++ texts l' := by
  induction l with
  | nil => rfl
  | cons chunk l ih =>
    rw [List.forall_mem_cons] at hl
    rw [List.cons_append, texts, texts, text?_of_unpackable hl.1, ih hl.2]
    rfl

theorem texts_append_of_not_unpackable {l l' : List Chunk}
    (hl : ∃ chunk ∈ l, ¬Unpackable chunk.data) : texts (l ++ l') = texts l := by
  induction l with
  | nil =>
    obtain ⟨chunk, hchunk, -⟩ := hl
    exact absurd hchunk List.not_mem_nil
  | cons chunk l ih =>
    rw [List.cons_append, texts, texts]
    by_cases hchunk : Unpackable chunk.data
    · rw [text?_of_unpackable hchunk, ih]
      obtain ⟨bad, hbad, hnot⟩ := hl
      rcases List.mem_cons.1 hbad with rfl | hbad
      · exact absurd hchunk hnot
      · exact ⟨bad, hbad, hnot⟩
    · rw [text?_of_not_unpackable hchunk]

/-- A connection is served up to its close, or to the first chunk that starts with
    no text. -/
theorem serve_eq (addr : Address) (chunks : List Chunk) :
    printed (server.serve addr chunks).1 = texts chunks ∧
      ((∀ chunk ∈ chunks, Unpackable chunk.data) → (server.serve addr chunks).2 = .ok .leave) ∧
      ((∃ chunk ∈ chunks, ¬Unpackable chunk.data) →
        ∃ e, (server.serve addr chunks).2 = .error e) := by
  induction chunks with
  | nil => exact ⟨rfl, fun _ => rfl, fun ⟨_, hchunk, _⟩ => absurd hchunk List.not_mem_nil⟩
  | cons chunk more ih =>
    obtain ⟨hprinted, hleave, herror⟩ := ih
    rw [Server.serve, texts]
    by_cases hchunk : Unpackable chunk.data
    · rw [turn_of_unpackable addr hchunk, text?_of_unpackable hchunk]
      refine ⟨?_, fun hall => ?_, fun hbad => ?_⟩
      · rw [printed_append, hprinted]
        rfl
      · exact hleave fun chunk hmem => hall chunk (List.mem_cons_of_mem _ hmem)
      · obtain ⟨bad, hbad, hnot⟩ := hbad
        rcases List.mem_cons.1 hbad with rfl | hbad
        · exact absurd hchunk hnot
        · exact herror ⟨bad, hbad, hnot⟩
    · obtain ⟨e, he⟩ := turn_of_not_unpackable addr chunk.ne_nil hchunk
      rw [he, text?_of_not_unpackable hchunk]
      exact ⟨rfl, fun hall => absurd (hall chunk List.mem_cons_self) hchunk, fun _ => ⟨e, rfl⟩⟩

/-- So are the connections, one after another. -/
theorem run_eq (sessions : List Session) :
    printed (server.run sessions).1 = texts (sessions.flatMap Session.chunks) ∧
      ((server.run sessions).2 = none ↔
        ∀ s ∈ sessions, ∀ chunk ∈ s.chunks, Unpackable chunk.data) := by
  induction sessions with
  | nil => exact ⟨rfl, fun _ _ hs => absurd hs List.not_mem_nil, fun _ => rfl⟩
  | cons s rest ih =>
    obtain ⟨hprinted, hnone⟩ := ih
    obtain ⟨hserve, hleave, herror⟩ := serve_eq s.addr s.chunks
    rw [Server.run, List.flatMap_cons, List.forall_mem_cons]
    by_cases hs : ∀ chunk ∈ s.chunks, Unpackable chunk.data
    · rw [hleave hs, texts_append_of_unpackable hs, Server.proceed]
      refine ⟨?_, hnone.trans (and_iff_right hs).symm⟩
      rw [printed_append, hprinted, ← hserve]
      rfl
    · push Not at hs
      obtain ⟨e, he⟩ := herror hs
      rw [he, texts_append_of_not_unpackable hs, Server.proceed]
      refine ⟨?_, ?_, fun h => ?_⟩
      · rw [List.append_nil, ← hserve]
        rfl
      · rintro ⟨⟩
      · obtain ⟨chunk, hchunk, hnot⟩ := hs
        exact absurd (h.1 chunk hchunk) hnot

/-- In every run, whoever connects and whatever is sent, the server prints the texts
    that the chunks start with, connection after connection, up to the first chunk
    that starts with none. There it raises, or it gets to the end of all
    connections, after no more than two steps for each and one for each chunk. -/
theorem runs_printed_eq (sessions : List Session) :
    (∀ x, (server.lts sessions).Reachable x →
      printed (server.output x) <+: texts (sessions.flatMap Session.chunks) ∧
      ∃ y, (server.lts sessions).Reaches x y ∧ (server.lts sessions).Halted y) ∧
    (∀ x, (server.lts sessions).Reachable x → (server.lts sessions).Halted x →
      printed (server.output x) = texts (sessions.flatMap Session.chunks) ∧
      ((∀ s ∈ sessions, ∀ chunk ∈ s.chunks, Unpackable chunk.data) →
        x.upcoming = [] ∧ x.phase = .accepting) ∧
      ((∃ s ∈ sessions, ∃ chunk ∈ s.chunks, ¬Unpackable chunk.data) → x.Raised)) ∧
    ∀ n x y, (server.lts sessions).Init x → (server.lts sessions).Steps n x y →
      n ≤ (sessions.map fun s => s.chunks.length + 2).sum := by
  obtain ⟨hreachable, hhalted, hsteps⟩ := Server.runs_eq turn_nil_ne_next sessions
  obtain ⟨hprinted, hnone⟩ := run_eq sessions
  refine ⟨fun x hx => ?_, fun x hx hhalt => ?_, hsteps⟩
  · obtain ⟨hdone, hend⟩ := hreachable x hx
    exact ⟨hprinted ▸ hdone.filterMap _, hend⟩
  · obtain ⟨hdone, hserved, hraised⟩ := hhalted x hx hhalt
    refine ⟨by rw [hdone, hprinted], fun hall => hserved (hnone.2 hall), fun hbad => ?_⟩
    cases he : (server.run sessions).2 with
    | none =>
      obtain ⟨s, hs, chunk, hchunk, hnot⟩ := hbad
      exact absurd (hnone.1 he s hs chunk hchunk) hnot
    | some e =>
      obtain ⟨c, hc⟩ := hraised e he
      exact ⟨c, e, hc⟩

end LogService.Xdr
