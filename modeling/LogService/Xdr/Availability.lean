import LogService.Xdr.Server

/-!
# When the XDR server outlives its peers

Nothing catches the exceptions of `unpack_string` and of `decode`, so the first
chunk that is too short for the string its first word announces, or whose string
is not UTF-8, ends the process.
-/

namespace LogService.Xdr

/-- The server outlives the sessions if and only if it gets through all their
    chunks. -/
theorem survives_iff_unpackable (sessions : List Session) :
    server.Survives sessions ↔ ∀ s ∈ sessions, ∀ chunk ∈ s.chunks, Unpackable chunk.data := by
  rw [survives_iff (fun addr => by rw [turn_nil]) turn_outcome_ne_leave]
  exact forall₂_congr fun _ _ => goesOn_iff

/-- One byte ends it. -/
theorem not_survives_byte :
    ¬server.Survives [⟨⟨"127.0.0.1", 50000⟩, [⟨[0], by decide, by decide⟩]⟩] := by
  intro h
  have hgoesOn := (survives_iff (fun addr => by rw [turn_nil]) turn_outcome_ne_leave).1 h
  have hchunk := goesOn_iff.1 (hgoesOn _ List.mem_cons_self) _ List.mem_cons_self
  exact absurd hchunk.word (by decide)

end LogService.Xdr
