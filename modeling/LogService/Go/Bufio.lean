import LogService.Utf8

/-!
# `bufio.Reader`

Reading the standard input line by line. A reader is the bytes it has not
returned yet; the input is finite, and followed by its end.

* `flatten_lines`: an input is its lines;
* `lines_eq_cons`: reading on returns the lines of the input, one by one;
* `getLast?_of_lines_eq`: only the last line may lack its newline.
-/

namespace Go

open Utf8 (Bytes)

/-- The errors of a reader. -/
inductive ReadError
  | eof
  deriving DecidableEq, Repr

/-- `reader.ReadString(delim)`: the bytes up to and including the delimiter, or
    all of them and an error when there is none; with the bytes left unread. -/
def readString (delim : UInt8) : Bytes → (Bytes × Option ReadError) × Bytes
  | [] => (([], some .eof), [])
  | b :: s =>
    if b = delim then (([b], none), s)
    else ((b :: (readString delim s).1.1, (readString delim s).1.2), (readString delim s).2)

/-- `'\n'`. -/
def newline : UInt8 := 0x0a

/-- The lines of an input, each with its newline, if it has one. -/
def lines : Bytes → List Bytes
  | [] => []
  | b :: s =>
    if b = newline then [b] :: lines s
    else match lines s with
      | [] => [[b]]
      | line :: rest => (b :: line) :: rest

/-- An input is its lines, one after another. -/
theorem flatten_lines (s : Bytes) : (lines s).flatten = s := by
  induction s with
  | nil => rfl
  | cons b s ih =>
    rw [lines]
    split
    · rw [List.flatten_cons, ih, List.singleton_append]
    · split
      · next h => rw [← ih, h]; rfl
      · next line rest h => rw [← ih, h]; rfl

@[simp] theorem lines_eq_nil {s : Bytes} : lines s = [] ↔ s = [] := by
  constructor
  · intro h
    rw [← flatten_lines s, h, List.flatten_nil]
  · rintro rfl
    rfl

/-- Reading on: the first line, and the lines of what is left unread. -/
theorem lines_eq_cons {s : Bytes} (hs : s ≠ []) :
    lines s = (readString newline s).1.1 :: lines (readString newline s).2 := by
  induction s with
  | nil => exact absurd rfl hs
  | cons b s ih =>
    rw [lines, readString]
    split
    · rfl
    · cases s with
      | nil => rfl
      | cons b' s => rw [ih (List.cons_ne_nil b' s)]

/-- What is read is the first line, or nothing at the end of the input. -/
theorem readString_eq_headD (s : Bytes) : (readString newline s).1.1 = (lines s).headD [] := by
  by_cases hs : s = []
  · subst hs
    rfl
  · rw [lines_eq_cons hs, List.headD_cons]

/-- What is left unread are the other lines. -/
theorem lines_readString (s : Bytes) : lines (readString newline s).2 = (lines s).tail := by
  by_cases hs : s = []
  · subst hs
    rfl
  · rw [lines_eq_cons hs, List.tail_cons]

/-- A line that is followed by another one has its newline. -/
theorem getLast?_of_lines_eq {s : Bytes} (before : List Bytes) {line line' : Bytes}
    {after : List Bytes} (h : lines s = before ++ line :: line' :: after) :
    line.getLast? = some newline := by
  induction s generalizing before line with
  | nil => simp [lines] at h
  | cons b s ih =>
    rw [lines] at h
    split at h
    · next hb =>
      cases before with
      | nil =>
        obtain ⟨rfl, -⟩ := List.cons.inj h
        rw [List.getLast?_singleton, hb]
      | cons first before => exact ih before (List.cons.inj h).2
    · split at h
      · have hlength := congrArg List.length h
        rw [List.length_append, List.length_singleton, List.length_cons,
          List.length_cons] at hlength
        omega
      · next first rest hrest =>
        cases before with
        | nil =>
          obtain ⟨rfl, hafter⟩ := List.cons.inj h
          have hfirst := ih [] (hrest.trans (congrArg (first :: ·) hafter))
          rw [List.getLast?_cons, hfirst]
          rfl
        | cons first' before =>
          obtain ⟨-, hafter⟩ := List.cons.inj h
          exact ih (first :: before) (hrest.trans (congrArg (first :: ·) hafter))

end Go
