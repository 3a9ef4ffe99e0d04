import LogService.Framing
import LogService.Go.Bufio

/-!
# The clients

Both clients read the standard input line by line, and write a message for every
line, until a line is `q`. They have one line read ahead when the body of their
loop starts, and look at no error of `ReadString`: after the end of the input, it
returns no bytes, again and again.

The line that `ReadString` returns has its newline, so only the last line of the
input can be `q`, if it has none.

* `ends_iff`: when a client ends, and what it has written then;
* `sendsTyped_iff`: when this is what was typed before `q`.
-/

namespace LogService

open Utf8 (Bytes)
open Go

/-- A client: the text last read, the input not read yet, and what has been
    written to the connection. -/
structure Client where
  textInput : Bytes
  stdin : Bytes
  written : List Bytes

/-- `"q"`. -/
def quit : Bytes := [0x71]

namespace Client

/-- `textInput, _ = reader.ReadString('\n')`. -/
def read (c : Client) : Client :=
  { c with textInput := (readString newline c.stdin).1.1, stdin := (readString newline c.stdin).2 }

/-- `conn.Write(message)`. -/
def write (c : Client) (message : Bytes) : Client := { c with written := c.written ++ [message] }

/-- A client connected, with the first line read. -/
def start (input : Bytes) : Client := (Client.mk [] input []).read

/-- A loop with the body `body`, which returns no client when the loop is left:
    the client left with, if it is within `n` iterations. -/
def loop (body : Client → Option Client) : ℕ → Client → Option Client
  | 0, _ => none
  | n + 1, c =>
    match body c with
    | none => some c
    | some c' => loop body n c'

variable {body : Client → Option Client}

/-- More iterations do not change how a loop ends. -/
theorem loop_add {n : ℕ} {c c' : Client} (h : loop body n c = some c') (m : ℕ) :
    loop body (n + m) c = some c' := by
  induction n generalizing c with
  | zero => cases h
  | succ n ih =>
    rw [Nat.add_right_comm, loop]
    rw [loop] at h
    split at h
    · exact h
    · exact ih h

/-- A loop ends in one way. -/
theorem loop_unique {n m : ℕ} {c c₁ c₂ : Client} (h₁ : loop body n c = some c₁)
    (h₂ : loop body m c = some c₂) : c₁ = c₂ := by
  have h := loop_add h₁ m
  rw [Nat.add_comm, loop_add h₂ n] at h
  exact (Option.some.inj h).symm

/-! ## The lines looked at -/

/-- The lines still to be looked at. -/
def pending (c : Client) : List Bytes := c.textInput :: lines c.stdin

theorem pending_read {c : Client} (h : c.stdin ≠ []) : c.read.pending = lines c.stdin :=
  (lines_eq_cons h).symm

/-- After the end of the input, an empty line is read. -/
theorem pending_read_of_nil {c : Client} (h : c.stdin = []) : c.read.pending = [[]] := by
  rw [pending, read, h]
  rfl

theorem pending_start {input : Bytes} (h : input ≠ []) : (start input).pending = lines input :=
  pending_read h

/-- What the body of a client's loop does: it leaves at `q`, and otherwise
    writes the message of the text and reads on, if it is one of `texts`. -/
structure Sends (body : Client → Option Client) (message : Bytes → Bytes) (texts : Set Bytes) :
    Prop where
  leave : ∀ c, c.textInput = quit → body c = none
  next : ∀ c, c.textInput ≠ quit → c.textInput ∈ texts →
    body c = some (c.write (message c.textInput)).read

variable {message : Bytes → Bytes} {texts : Set Bytes}

/-- Up to `q`, the loop writes the message of every line. -/
theorem Sends.loop_eq_some (h : Sends body message texts) {before after : List Bytes}
    {c : Client} (hpending : c.pending = before ++ quit :: after)
    (hquit : quit ∉ before) (htexts : ∀ t ∈ before, t ∈ texts) :
    ∃ n c', loop body n c = some c' ∧ c'.written = c.written ++ before.map message := by
  induction before generalizing c with
  | nil =>
    have htext : c.textInput = quit := (List.cons.inj hpending).1
    refine ⟨1, c, ?_, (List.append_nil _).symm⟩
    rw [loop, h.leave c htext]
  | cons t before ih =>
    obtain ⟨htext, hlines⟩ := List.cons.inj hpending
    rw [List.mem_cons, not_or] at hquit
    rw [List.forall_mem_cons] at htexts
    have hstdin : c.stdin ≠ [] := by
      rw [ne_eq, ← lines_eq_nil, hlines]
      simp
    have hread : (c.write (message t)).read.pending = before ++ quit :: after :=
      (pending_read hstdin).trans hlines
    obtain ⟨n, c', hloop, hwritten⟩ := ih hread hquit.2 htexts.2
    refine ⟨n + 1, c', ?_, ?_⟩
    · rw [loop, h.next c (htext ▸ Ne.symm hquit.1) (htext ▸ htexts.1), htext]
      exact hloop
    · rw [hwritten, List.map_cons, List.append_cons]
      rfl

/-- Without a line that is `q` it never ends: after the end of the input, it
    goes on with empty lines. -/
theorem Sends.loop_eq_none (h : Sends body message texts) (n : ℕ) {c : Client}
    (hquit : quit ∉ c.pending) (htexts : ∀ t ∈ [] :: c.pending, t ∈ texts) :
    loop body n c = none := by
  induction n generalizing c with
  | zero => rfl
  | succ n ih =>
    have htext : c.textInput ≠ quit := fun heq => hquit (heq ▸ List.mem_cons_self)
    have hmem : c.textInput ∈ texts := htexts _ (List.mem_cons_of_mem _ List.mem_cons_self)
    rw [loop, h.next c htext hmem]
    -- At the end of the input, the next line read is the empty one.
    by_cases hstdin : c.stdin = []
    · have hread : (c.write (message c.textInput)).read.pending = [[]] := pending_read_of_nil hstdin
      refine ih (by rw [hread]; decide) fun t ht => htexts t ?_
      rw [hread] at ht
      simp only [List.mem_cons, List.not_mem_nil, or_false, or_self] at ht
      exact ht ▸ List.mem_cons_self
    · have hread : (c.write (message c.textInput)).read.pending = lines c.stdin :=
        pending_read hstdin
      refine ih (fun hmem => hquit ?_) fun t ht => htexts t ?_
      · rw [hread] at hmem
        exact List.mem_cons_of_mem _ hmem
      · rw [hread] at ht
        exact (List.mem_cons.1 ht).elim (fun heq => heq ▸ List.mem_cons_self)
          fun hmem => List.mem_cons_of_mem _ (List.mem_cons_of_mem _ hmem)

/-! ## The end -/

/-- Only the last line can be `q`: the others have their newlines. -/
theorem eq_nil_of_lines_eq {input : Bytes} {before after : List Bytes}
    (h : lines input = before ++ quit :: after) :
    after = [] ∧ quit ∉ before := by
  have hlast : quit.getLast? ≠ some newline := by decide
  constructor
  · cases after with
    | nil => rfl
    | cons line after => exact absurd (getLast?_of_lines_eq before h) hlast
  -- A `q` among the lines before would be followed by another one, too.
  · intro hmem
    obtain ⟨before₁, before₂, rfl⟩ := List.append_of_mem hmem
    cases before₂ with
    | nil =>
      rw [List.append_assoc] at h
      exact hlast (getLast?_of_lines_eq before₁ h)
    | cons line before₂ =>
      rw [List.append_assoc] at h
      exact hlast (getLast?_of_lines_eq before₁ h)

/-- A client ends if and only if the last line of the input is `q`, without a
    newline; it has then written the messages of the lines before it. -/
theorem Sends.ends_iff (h : Sends body message texts) {input : Bytes}
    (htexts : ∀ t ∈ [] :: lines input, t ∈ texts) {written : List Bytes} :
    (∃ n c, loop body n (start input) = some c ∧ c.written = written) ↔
      ∃ before, lines input = before ++ [quit] ∧ written = before.map message := by
  have hends : ∀ before, lines input = before ++ [quit] →
      ∃ n c, loop body n (start input) = some c ∧ c.written = before.map message := by
    intro before hlines
    have hinput : input ≠ [] := by
      rw [ne_eq, ← lines_eq_nil, hlines]
      simp
    refine h.loop_eq_some ((pending_start hinput).trans hlines) (eq_nil_of_lines_eq hlines).2 ?_
    intro t ht
    refine htexts t (List.mem_cons_of_mem _ ?_)
    rw [hlines]
    exact List.mem_append_left _ ht
  constructor
  · rintro ⟨n, c, hloop, rfl⟩
    -- A client that has ended has met a `q`, and it was the last line.
    have hquit : quit ∈ lines input := by
      by_contra hquit
      have hnone : loop body n (start input) = none := by
        by_cases hinput : input = []
        · subst hinput
          refine h.loop_eq_none n (by decide) fun t ht => htexts t ?_
          simpa [start, pending, read, readString, lines] using ht
        · refine h.loop_eq_none n ?_ ?_
          · rwa [pending_start hinput]
          · rwa [pending_start hinput]
      rw [hnone] at hloop
      cases hloop
    obtain ⟨before, after, hlines⟩ := List.append_of_mem hquit
    obtain rfl : after = [] := (eq_nil_of_lines_eq hlines).1
    obtain ⟨m, c', hloop', hwritten⟩ := hends before hlines
    rw [loop_unique hloop hloop']
    exact ⟨before, hlines, hwritten⟩
  · rintro ⟨before, hlines, rfl⟩
    exact hends before hlines

/-! ## What has been written -/

/-- The `j`-th line of an input, from 0 on; after its end, they are empty. -/
def text (input : Bytes) (j : ℕ) : Bytes := (lines input).getD j []

/-- The first lines, while there are any. -/
theorem map_text_range {input : Bytes} {n : ℕ} (hn : n ≤ (lines input).length) :
    (List.range n).map (text input) = (lines input).take n := by
  refine List.ext_getElem? fun j => ?_
  rw [List.getElem?_map, List.getElem?_take]
  split
  · next hj =>
    have hlt : j < (lines input).length := hj.trans_le hn
    rw [List.getElem?_range hj, Option.map_some, text, List.getD_eq_getElem _ _ hlt,
      List.getElem?_eq_getElem hlt]
  · next hj => rw [List.getElem?_eq_none (by simpa using hj), Option.map_none]

/-- The lines before the last one, and the last one. -/
theorem text_eq {input : Bytes} {before : List Bytes} {last : Bytes}
    (hlines : lines input = before ++ [last]) :
    (∀ j (hj : j < before.length), text input j = before[j]) ∧ text input before.length = last := by
  refine ⟨fun j hj => ?_, ?_⟩
  · rw [text, hlines, List.getD_append _ _ _ _ hj, List.getD_eq_getElem _ _ hj]
  · rw [text, hlines, List.getD_append_right _ _ _ _ le_rfl, Nat.sub_self]
    rfl

/-- A text that a client may send. -/
theorem text_mem {input : Bytes} {texts : Set Bytes} (htexts : ∀ t ∈ [] :: lines input, t ∈ texts)
    (j : ℕ) : text input j ∈ texts := by
  rcases Nat.lt_or_ge j (lines input).length with hj | hj
  · rw [text, List.getD_eq_getElem _ _ hj]
    exact htexts _ (List.mem_cons_of_mem _ (List.getElem_mem hj))
  · rw [text, List.getD_eq_default _ _ hj]
    exact htexts _ List.mem_cons_self

/-- A client that started on the input `input`: it has written the messages of
    the first lines, none of them `q`, and looks at the next one. -/
structure Typed (message : Bytes → Bytes) (input : Bytes) (c : Client) : Prop where
  written : c.written = (List.range c.written.length).map fun j => message (text input j)
  ne_quit : ∀ j < c.written.length, text input j ≠ quit
  textInput : c.textInput = text input c.written.length
  stdin : lines c.stdin = (lines input).drop (c.written.length + 1)

theorem typed_start (message : Bytes → Bytes) (input : Bytes) :
    Typed message input (start input) where
  written := rfl
  ne_quit _ h := absurd h (Nat.not_lt_zero _)
  textInput := by
    change (readString newline input).1.1 = (lines input).getD 0 []
    rw [readString_eq_headD]
    cases lines input <;> rfl
  stdin := (lines_readString input).trans List.drop_one.symm

/-- Where the loop goes on, the message of a text has been written, and the next
    line been read. -/
theorem Sends.of_body_eq_some (h : Sends body message texts) {c c' : Client}
    (htext : c.textInput ∈ texts) (hbody : body c = some c') :
    c.textInput ≠ quit ∧ c' = (c.write (message c.textInput)).read := by
  have hquit : c.textInput ≠ quit := by
    intro hquit
    rw [h.leave c hquit] at hbody
    cases hbody
  rw [h.next c hquit htext, Option.some.injEq] at hbody
  exact ⟨hquit, hbody.symm⟩

/-- It is left at `q` only. -/
theorem Sends.eq_quit_of_body_eq_none (h : Sends body message texts) {c : Client}
    (htext : c.textInput ∈ texts) (hbody : body c = none) : c.textInput = quit := by
  by_contra hquit
  rw [h.next c hquit htext] at hbody
  cases hbody

/-- An iteration writes the message of one more line. -/
theorem Sends.typed_next (h : Sends body message texts) {input : Bytes}
    (htexts : ∀ j, text input j ∈ texts) {c c' : Client} (hc : Typed message input c)
    (hbody : body c = some c') : Typed message input c' := by
  obtain ⟨hquit, rfl⟩ := h.of_body_eq_some (hc.textInput ▸ htexts _) hbody
  have hlength : (c.write (message c.textInput)).read.written.length = c.written.length + 1 :=
    List.length_append
  refine ⟨?_, ?_, ?_, ?_⟩ <;> rw [hlength]
  · rw [List.range_succ, List.map_append, ← hc.written, List.map_singleton, ← hc.textInput]
    rfl
  · intro j hj
    rcases Nat.lt_succ_iff_lt_or_eq.1 hj with hj | rfl
    · exact hc.ne_quit j hj
    · rwa [← hc.textInput]
  · change (readString newline c.stdin).1.1 = (lines input).getD (c.written.length + 1) []
    rw [readString_eq_headD, hc.stdin, List.headD_eq_head?_getD, List.head?_drop,
      List.getD_eq_getElem?_getD]
  · change lines (readString newline c.stdin).2 = _
    rw [lines_readString, hc.stdin, List.tail_drop]

/-- A client does not get past the last line, if that is `q`. -/
theorem Typed.length_le {input : Bytes} {c : Client} (hc : Typed message input c)
    {before : List Bytes} (hlines : lines input = before ++ [quit]) :
    c.written.length ≤ before.length := by
  by_contra hlt
  exact hc.ne_quit _ (not_le.1 hlt) (text_eq hlines).2

/-- A client whose loop has been left has come to the last line, which is `q`. -/
theorem Typed.lines_eq {input : Bytes} {c : Client} (hc : Typed message input c)
    (hquit : c.textInput = quit) :
    ∃ before, lines input = before ++ [quit] ∧ c.written = before.map message := by
  have htext : text input c.written.length = quit := hc.textInput.symm.trans hquit
  have hlt : c.written.length < (lines input).length := by
    by_contra hge
    rw [text, List.getD_eq_default _ _ (not_lt.1 hge)] at htext
    cases htext
  rw [text, List.getD_eq_getElem _ _ hlt] at htext
  have hsplit : lines input = (lines input).take c.written.length ++
      quit :: (lines input).drop (c.written.length + 1) := by
    conv_lhs => rw [← List.take_append_drop c.written.length (lines input)]
    rw [List.drop_eq_getElem_cons hlt, htext]
  refine ⟨(lines input).take c.written.length, ?_, ?_⟩
  · conv_lhs => rw [hsplit]
    rw [(eq_nil_of_lines_eq hsplit).1]
  · conv_lhs => rw [hc.written]
    rw [← map_text_range hlt.le, List.map_map]
    rfl

/-- What has been written is the stream of their messages. -/
theorem Typed.flatten_written {input : Bytes} {c : Client} (hc : Typed message input c) :
    c.written.flatten =
      Framing.stream message ((List.range c.written.length).map (text input)) := by
  conv_lhs => rw [hc.written]
  rw [Framing.stream, List.flatMap_map, List.flatMap_def]

/-- So when it has left its loop, and what it has written are the messages of the
    first `k` lines, these are all its lines but for the `q`. -/
theorem Typed.lines_eq_range (hmessage : ∀ t, message t ≠ []) {input : Bytes} {c : Client}
    (hc : Typed message input c) (hquit : c.textInput = quit) {k : ℕ} (hk : k ≤ c.written.length)
    (hall : ((List.range k).map fun j => message (text input j)).flatten = c.written.flatten) :
    lines input = (List.range k).map (text input) ++ [quit] := by
  obtain ⟨before, hlines, hbefore⟩ := hc.lines_eq hquit
  have hlength : c.written.length = before.length := by rw [hbefore, List.length_map]
  have hrange : (List.range c.written.length).map (text input) = before := by
    rw [map_text_range (by rw [hlines, hlength, List.length_append]; omega), hlines, hlength,
      List.take_left]
  have hprefix : (List.range k).map (text input) <+:
      (List.range c.written.length).map (text input) := by
    obtain ⟨d, hd⟩ := Nat.exists_eq_add_of_le hk
    rw [hd, List.range_add, List.map_append]
    exact List.prefix_append _ _
  have heq := Framing.eq_of_stream_eq message hmessage hprefix <| by
    rw [← hc.flatten_written, ← hall, Framing.stream, List.flatMap_map, List.flatMap_def]
  rw [hlines, heq, hrange]

/-! ## What was typed -/

/-- A line without its newline. -/
def content (line : Bytes) : Bytes :=
  if line.getLast? = some newline then line.dropLast else line

/-- The lines before the first one that reads `q`. -/
def beforeQuit (input : Bytes) : List Bytes := (lines input).takeWhile (content · ≠ quit)

/-- The loop of a client ends, and what it has written carries, in order, the
    lines before `q`. -/
def SendsTyped (body : Client → Option Client) (carries : Bytes → Bytes → Prop)
    (input : Bytes) : Prop :=
  ∃ n c, loop body n (start input) = some c ∧ List.Forall₂ carries (beforeQuit input) c.written

/-- The first line that reads `q` is the last line, and has no newline. -/
def QuitsAtEnd (input : Bytes) : Prop :=
  ∃ before, lines input = before ++ [quit] ∧ ∀ line ∈ before, content line ≠ quit

theorem content_quit : content quit = quit := by decide

/-- Then the lines before it are those before the last. -/
theorem beforeQuit_eq {input : Bytes} {before : List Bytes}
    (hlines : lines input = before ++ [quit])
    (hbefore : ∀ line ∈ before, content line ≠ quit) : beforeQuit input = before := by
  rw [beforeQuit, hlines, List.takeWhile_append_of_pos (by simpa using hbefore),
    List.takeWhile_cons_of_neg (by simp [content_quit]), List.append_nil]

/-- A client sends what was typed if and only if the first line that reads `q`
    is the last one, without a newline, and the messages of those before it
    carry them. -/
theorem Sends.sendsTyped_iff (h : Sends body message texts) {input : Bytes}
    (htexts : ∀ t ∈ [] :: lines input, t ∈ texts) {carries : Bytes → Bytes → Prop} :
    SendsTyped body carries input ↔
      QuitsAtEnd input ∧ ∀ line ∈ beforeQuit input, carries line (message line) := by
  constructor
  · rintro ⟨n, c, hloop, hcarries⟩
    obtain ⟨before, hlines, hwritten⟩ := (h.ends_iff htexts).1 ⟨n, c, hloop, rfl⟩
    -- As many lines before `q` as have been written: they are all before `q`.
    have hlength : (beforeQuit input).length = before.length := by
      rw [hcarries.length_eq, hwritten, List.length_map]
    have hprefix : beforeQuit input <+: before ++ [quit] :=
      hlines ▸ List.takeWhile_prefix _
    have heq : beforeQuit input = before :=
      (List.prefix_of_prefix_length_le hprefix (List.prefix_append _ _) hlength.le).eq_of_length
        hlength
    refine ⟨⟨before, hlines, fun line hline => ?_⟩, ?_⟩
    · rw [← heq] at hline
      simpa using List.mem_takeWhile_imp hline
    · rw [hwritten, heq, List.forall₂_map_right_iff, List.forall₂_same] at hcarries
      rwa [heq]
  · rintro ⟨⟨before, hlines, hbefore⟩, hcarries⟩
    obtain ⟨n, c, hloop, hwritten⟩ := (h.ends_iff htexts).2 ⟨before, hlines, rfl⟩
    refine ⟨n, c, hloop, ?_⟩
    rw [hwritten, beforeQuit_eq hlines hbefore, List.forall₂_map_right_iff, List.forall₂_same]
    rwa [beforeQuit_eq hlines hbefore] at hcarries

end Client

end LogService
