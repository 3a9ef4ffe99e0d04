import Mathlib

/-!
# Messages on a stream

A sender turns messages into pieces of a stream, one after another
(`Framing.stream`), and the stream reaches the receiver cut into chunks that
need not respect the pieces (`Framing.IsCutting`). What the receiver can know
of, after `n` symbols, are the messages whose pieces are complete by then
(`Framing.complete`).

* `PrefixFree.map_eq_of_stream_eq`: if no piece goes on in another one, a stream
  has one way only of being split;
* `complete_length_eq_iff`: how many messages are complete;
* `eq_of_flatten_eq`: as many chunks as pieces, none shorter than its piece,
  are the pieces themselves. Lengths alone force the alignment.
-/

namespace Framing

variable {α β : Type*} (enc : α → List β)

/-- The stream of the messages `as`: their pieces, one after another. -/
def stream (as : List α) : List β := as.flatMap enc

@[simp] theorem stream_nil : stream enc [] = [] := rfl

@[simp] theorem stream_cons (a : α) (as : List α) :
    stream enc (a :: as) = enc a ++ stream enc as := by simp [stream]

@[simp] theorem stream_append (as bs : List α) :
    stream enc (as ++ bs) = stream enc as ++ stream enc bs := by simp [stream]

/-- Only the empty stream is that of no messages, if no piece is empty. -/
theorem stream_eq_nil (henc : ∀ a, enc a ≠ []) {as : List α} : stream enc as = [] ↔ as = [] := by
  cases as with
  | nil => simp
  | cons a as => simp [henc a]

/-- Of the streams of first messages of `as`, one goes on after another with the
    messages in between. -/
theorem exists_of_stream_eq_append (henc : ∀ a, enc a ≠ []) {as bs cs : List α} {s : List β}
    (hbs : bs <+: as) (hcs : cs <+: as) (h : stream enc cs = stream enc bs ++ s) :
    ∃ ds, cs = bs ++ ds ∧ s = stream enc ds := by
  rcases List.prefix_or_prefix_of_prefix hbs hcs with ⟨ds, rfl⟩ | ⟨ds, rfl⟩
  · rw [stream_append, List.append_cancel_left_eq] at h
    exact ⟨ds, rfl, h.symm⟩
  · rw [stream_append, List.append_assoc, List.self_eq_append_right, List.append_eq_nil_iff,
      stream_eq_nil enc henc] at h
    obtain ⟨rfl, rfl⟩ := h
    exact ⟨[], by rw [List.append_nil, List.append_nil], rfl⟩

/-- Of first messages, no others have the same stream. -/
theorem eq_of_stream_eq (henc : ∀ a, enc a ≠ []) {as bs : List α} (hbs : bs <+: as)
    (h : stream enc bs = stream enc as) : bs = as := by
  obtain ⟨ds, rfl⟩ := hbs
  rw [stream_append, List.self_eq_append_right, stream_eq_nil enc henc] at h
  rw [h, List.append_nil]

/-- What follows the first `m` messages in a stream starts with the next one, or is a
    part of it. -/
theorem exists_of_stream_append_isPrefix {f : ℕ → α} {m n : ℕ} {s : List β} (hs : s ≠ [])
    (h : stream enc ((List.range m).map f) ++ s <+: stream enc ((List.range n).map f)) :
    m < n ∧ ∃ rest, s <+: enc (f m) ++ rest := by
  rcases Nat.lt_or_ge m n with hm | hm
  · obtain ⟨d, rfl⟩ := Nat.exists_eq_add_of_lt hm
    rw [Nat.add_assoc, List.range_add, List.map_append, stream_append,
      List.prefix_append_right_inj, List.range_succ_eq_map, List.map_cons, List.map_cons,
      stream_cons] at h
    exact ⟨hm, _, h⟩
  · -- There are no more messages, but `s` is not empty.
    exfalso
    obtain ⟨d, rfl⟩ := Nat.exists_eq_add_of_le hm
    have hle := h.length_le
    rw [List.range_add, List.map_append, stream_append, List.length_append,
      List.length_append] at hle
    have hpos := List.length_pos_iff.2 hs
    omega

/-- No piece goes on in another one. -/
def PrefixFree : Prop := ∀ a b, enc a <+: enc b → enc a = enc b

/-- Then a stream has one way only of being split into pieces. -/
theorem PrefixFree.map_eq_of_stream_eq (h : PrefixFree enc) (henc : ∀ a, enc a ≠ [])
    {as bs : List α} (hstream : stream enc as = stream enc bs) : as.map enc = bs.map enc := by
  induction as generalizing bs with
  | nil =>
    rw [stream_nil, eq_comm, stream_eq_nil enc henc] at hstream
    rw [hstream]
  | cons a as ih =>
    cases bs with
    | nil =>
      rw [stream_nil, stream_eq_nil enc henc] at hstream
      exact absurd hstream (List.cons_ne_nil a as)
    | cons b bs =>
      rw [stream_cons, stream_cons] at hstream
      -- Of the two first pieces, one is a prefix of the other.
      have heq : enc a = enc b := by
        rcases List.prefix_or_prefix_of_prefix (List.prefix_append (enc a) (stream enc as))
          (hstream ▸ List.prefix_append (enc b) (stream enc bs)) with hab | hba
        · exact h a b hab
        · exact (h b a hba).symm
      rw [heq, List.append_cancel_left_eq] at hstream
      rw [List.map_cons, List.map_cons, heq, ih hstream]

/-- A way of cutting the stream `s` into non-empty chunks of at most `limit`
    symbols. -/
structure IsCutting (limit : ℕ) (s : List β) (chunks : List (List β)) : Prop where
  flatten : chunks.flatten = s
  ne_nil : ∀ c ∈ chunks, c ≠ []
  length_le : ∀ c ∈ chunks, c.length ≤ limit

/-- Every stream can be cut, if chunks may hold anything at all. -/
theorem exists_isCutting {limit : ℕ} (hl : 0 < limit) (s : List β) :
    ∃ chunks, IsCutting limit s chunks := by
  refine ⟨s.map fun b => [b], by induction s <;> simp_all, ?_, ?_⟩ <;>
    simp only [List.mem_map] <;> rintro _ ⟨b, _, rfl⟩
  · exact List.cons_ne_nil _ _
  · exact hl

/-! ## Complete messages -/

/-- The messages whose pieces lie wholly inside the first `n` symbols. -/
def complete : List α → ℕ → List α
  | [], _ => []
  | a :: as, n => if (enc a).length ≤ n then a :: complete as (n - (enc a).length) else []

variable {enc}

/-- They are the first messages. -/
theorem complete_isPrefix (as : List α) (n : ℕ) : complete enc as n <+: as := by
  induction as generalizing n with
  | nil => exact List.nil_prefix
  | cons a as ih =>
    rw [complete]
    split
    · exact (List.prefix_cons_inj a).2 (ih _)
    · exact List.nil_prefix

/-- `k` messages are complete after `n` symbols if their pieces are, and the next one
    is not. -/
theorem complete_length_eq_iff {as : List α} {n k : ℕ} :
    (complete enc as n).length = k ↔ k ≤ as.length ∧ (stream enc (as.take k)).length ≤ n ∧
      (k < as.length → n < (stream enc (as.take (k + 1))).length) := by
  induction as generalizing n k with
  | nil =>
    simp only [complete, List.length_nil, Nat.le_zero, List.take_nil, stream_nil, Nat.zero_le,
      Nat.not_lt_zero, false_imp_iff, and_true]
    exact eq_comm
  | cons a as ih =>
    rw [complete]
    by_cases ha : (enc a).length ≤ n
    · rw [if_pos ha, List.length_cons]
      cases k with
      | zero => simp [ha]
      | succ k =>
        rw [Nat.succ_inj, ih]
        simp only [List.length_cons, List.take_succ_cons, stream_cons, List.length_append,
          Nat.add_le_add_iff_right, Nat.add_lt_add_iff_right]
        -- Both bounds are those of the rest, moved by the first piece.
        refine and_congr_right fun _ => and_congr ?_ (imp_congr_right fun _ => ?_)
        · omega
        · omega
    · rw [if_neg ha]
      cases k with
      | zero => simpa using ha
      | succ k => simp; omega

/-- Before the first symbol no message is complete, as no piece is empty. -/
theorem complete_zero (henc : ∀ a, enc a ≠ []) (as : List α) : complete enc as 0 = [] := by
  cases as with
  | nil => rfl
  | cons a as => rw [complete, if_neg]; simpa using henc a

/-- As many chunks as pieces, no chunk shorter than its piece, and the same
    symbols altogether: the chunks are the pieces. -/
theorem eq_of_flatten_eq {cs ps : List (List β)} (hflat : cs.flatten = ps.flatten)
    (hlen : List.Forall₂ (fun c p => p.length ≤ c.length) cs ps) : cs = ps := by
  -- No chunk can be longer than its piece: the total length is the same.
  have htotal : ∀ {cs ps : List (List β)},
      List.Forall₂ (fun c p => p.length ≤ c.length) cs ps →
        ps.flatten.length ≤ cs.flatten.length := by
    intro cs ps h
    induction h with
    | nil => simp
    | cons hcp _ ih => simp only [List.flatten_cons, List.length_append]; omega
  induction hlen with
  | nil => rfl
  | @cons c p cs ps hcp h ih =>
    rw [List.flatten_cons, List.flatten_cons] at hflat
    have hle := congrArg List.length hflat
    rw [List.length_append, List.length_append] at hle
    have hrest := htotal h
    obtain ⟨rfl, hrest⟩ := List.append_inj hflat (by omega)
    rw [ih hrest]

end Framing
