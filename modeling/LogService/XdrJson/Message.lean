import LogService.Framing
import LogService.Python.Json.Scan
import LogService.XdrJson.Client

/-!
# Messages on the wire

What `json.loads` makes of the bytes `json.Marshal` has written. A message
begins with the brace of an object and ends with the brace that closes it, and
nothing in between closes the object: nothing shorter than a message can be
parsed, and nothing longer, up to white space, which no message contains.

* `exists_escape`: a text between quotes is read back, rune by rune;
* `loads_message`: so is a message;
* `eq_message_of_loads`: of the starts of a stream of messages, only the first
  message can be parsed.
-/

namespace LogService.XdrJson

open Utf8 (Bytes)
open Go (ascii decodeRuneInString runes runeError htmlSafeSet escapeASCII)
open Python Python.Json

variable {v : Go.Version}

/-! ## Texts between quotes -/

/-- The characters `e` are scanned as the numbers `us`, whatever follows, if
    anything does. -/
def Reads (e : List Char) (us : List ℕ) : Prop :=
  ∀ s ≠ [], scanUnits (e ++ s) = (scanUnits s).map (Prod.map (us ++ ·) id)

theorem Reads.nil : Reads [] [] := by
  intro s _
  rcases h : scanUnits s with _ | ⟨us, r⟩ <;> simp [h, Except.map]

theorem Reads.append {e e' : List Char} {us us' : List ℕ} (h : Reads e us) (h' : Reads e' us') :
    Reads (e ++ e') (us ++ us') := by
  intro s hs
  rw [List.append_assoc, h _ (List.append_ne_nil_of_right_ne_nil e' hs), h' s hs]
  rcases scanUnits s with _ | ⟨us, r⟩ <;> simp [Except.map]

/-- The character an escape stands for. -/
def unescape? : List Char → Option ℕ
  | ['\\', e] => (backslash e).map Char.toNat
  | ['\\', 'u', a, b, c, d] => decodeUXXXX a b c d
  | _ => Option.none

theorem reads_of_unescape? {e : List Char} {u : ℕ} (h : unescape? e = some u) : Reads e [u] := by
  intro s hs
  unfold unescape? at h
  split at h
  · obtain ⟨c, hc, rfl⟩ := Option.map_eq_some_iff.1 h
    exact scanUnits_backslash hc s
  · exact scanUnits_unicode h hs
  · cases h

theorem reads_char {c : Char} (hq : c ≠ '"') (hb : c ≠ '\\') (hc : 0x1f < c.toNat) :
    Reads [c] [c.toNat] :=
  fun s _ => scanUnits_char hq hb hc s

/-! ### ASCII -/

/-- The characters of ASCII bytes. -/
def asciiChars (bs : Bytes) : List Char := bs.map fun b => Char.ofNat b.toNat

/-- What is written for an ASCII character, in table form. -/
theorem escape_ascii_table : ∀ short raw : Bool, ∀ n < 128,
    (Char.ofNat n).val ≤ 127 ∧ (Char.ofNat n).val.toUInt8 = UInt8.ofNat n ∧
    (htmlSafeSet (UInt8.ofNat n) = true →
      Char.ofNat n ≠ '"' ∧ Char.ofNat n ≠ '\\' ∧ 0x1f < (Char.ofNat n).toNat) ∧
    (htmlSafeSet (UInt8.ofNat n) = false →
      Utf8.encode (asciiChars (escapeASCII ⟨short, raw⟩ (UInt8.ofNat n))) =
        escapeASCII ⟨short, raw⟩ (UInt8.ofNat n) ∧
      unescape? (asciiChars (escapeASCII ⟨short, raw⟩ (UInt8.ofNat n))) =
        some (Char.ofNat n).toNat) := by
  decide +kernel

/-- An ASCII byte is a rune. -/
theorem decodeRuneInString_of_ascii {b : UInt8} (hb : b < 0x80) (s : Bytes) :
    decodeRuneInString (b :: s) = (Char.ofNat b.toNat, 1) := by
  obtain ⟨hle, hbyte, -⟩ :=
    escape_ascii_table false false b.toNat (by simpa [UInt8.lt_iff_toNat_lt] using hb)
  rw [UInt8.ofNat_toNat] at hbyte
  have hencode : b :: s = String.utf8EncodeChar (Char.ofNat b.toNat) ++ s := by
    rw [Utf8.encodeChar_of_ascii hle, hbyte, List.singleton_append]
  have hsize : (Char.ofNat b.toNat).utf8Size = 1 := by
    rw [← String.length_utf8EncodeChar, Utf8.encodeChar_of_ascii hle, List.length_singleton]
  rw [decodeRuneInString, if_neg (List.cons_ne_nil b s), hencode, Utf8.decodeChar?_append]
  simp only [hsize]

/-- What starts with another byte is not an ASCII character. -/
theorem le_toNat_of_decodeChar? {b : UInt8} (hb : ¬b < 0x80) {s : Bytes} {c : Char}
    (hc : Utf8.decodeChar? (b :: s) = some c) : 0x80 ≤ c.toNat := by
  by_contra h
  have hle : c.val ≤ 127 := UInt32.le_iff_toNat_le.2 (Nat.le_of_lt_succ (not_le.1 h))
  have hbytes := Utf8.eq_append_of_decodeChar? hc
  rw [Utf8.encodeChar_of_ascii hle, List.singleton_append, List.cons.injEq] at hbytes
  refine hb (UInt8.lt_iff_toNat_lt.2 ?_)
  rw [hbytes.1, UInt32.toNat_toUInt8]
  exact (Nat.mod_le _ _).trans_lt (not_le.1 h)

/-! ### Runes -/

/-- What is written for the first rune of a string reads as this rune. -/
theorem exists_escape_cons (v : Go.Version) (b : UInt8) (s : Bytes) :
    ∃ e, Go.escape v (b :: s) =
        Utf8.encode e ++ Go.escape v ((b :: s).drop (decodeRuneInString (b :: s)).2) ∧
      Reads e [(decodeRuneInString (b :: s)).1.toNat] := by
  rw [Go.escape]
  split
  · next hb =>
    rw [decodeRuneInString_of_ascii hb]
    obtain ⟨hle, hbyte, hsafe, hescape⟩ :=
      escape_ascii_table v.shortEscapes v.rawRuneError b.toNat
        (by simpa [UInt8.lt_iff_toNat_lt] using hb)
    rw [UInt8.ofNat_toNat] at hbyte hsafe hescape
    split
    · next h =>
      obtain ⟨hq, hbs, hc⟩ := hsafe h
      refine ⟨[Char.ofNat b.toNat], ?_, reads_char hq hbs hc⟩
      rw [Utf8.encode_cons, Utf8.encodeChar_of_ascii hle, hbyte]
      rfl
    · next h =>
      obtain ⟨hencode, hread⟩ := hescape (by simpa using h)
      exact ⟨asciiChars (escapeASCII v b), by rw [hencode]; rfl, reads_of_unescape? hread⟩
  · next hb =>
    -- A byte that is not of a rune, or the first one of a longer rune.
    cases hdec : Utf8.decodeChar? (b :: s) with
    | none =>
      have hrune : decodeRuneInString (b :: s) = (runeError, 1) := by
        rw [decodeRuneInString, if_neg (List.cons_ne_nil b s), hdec]
      rw [hrune]
      dsimp only
      rw [if_pos ⟨rfl, rfl⟩]
      split
      · exact ⟨[runeError], rfl, reads_char (by decide) (by decide) (by decide)⟩
      · exact ⟨"\\ufffd".toList, rfl, reads_of_unescape? (by decide)⟩
    | some c =>
      have hrune : decodeRuneInString (b :: s) = (c, c.utf8Size) := by
        rw [decodeRuneInString, if_neg (List.cons_ne_nil b s), hdec]
      have hc := le_toNat_of_decodeChar? hb hdec
      have hsize : c.utf8Size ≠ 1 := fun h =>
        absurd (UInt32.le_iff_toNat_le.1 (Char.utf8Size_eq_one_iff.1 h)) (not_le.2 hc)
      have htake : (b :: s).take c.utf8Size = Utf8.encode [c] := by
        rw [Utf8.eq_append_of_decodeChar? hdec, ← String.length_utf8EncodeChar, List.take_left,
          Utf8.encode_cons, Utf8.encode_nil, List.append_nil]
      rw [hrune]
      dsimp only
      rw [if_neg fun h => hsize h.2]
      split
      · next hsep =>
        rcases hsep with rfl | rfl
        · exact ⟨"\\u2028".toList, rfl, reads_of_unescape? (by decide)⟩
        · exact ⟨"\\u2029".toList, rfl, reads_of_unescape? (by decide)⟩
      · refine ⟨[c], by rw [htake], reads_char ?_ ?_ (by omega)⟩ <;>
          rintro rfl <;> exact absurd hc (by decide)

/-- A text between quotes is read back, rune by rune. -/
theorem exists_escape (v : Go.Version) (t : Bytes) :
    ∃ e, Go.escape v t = Utf8.encode e ∧ Reads e ((runes t).map Char.toNat) := by
  fun_induction runes t with
  | case1 => exact ⟨[], by rw [Go.escape, Utf8.encode_nil], Reads.nil⟩
  | case2 b s ih =>
    obtain ⟨e, hescape, hread⟩ := exists_escape_cons v b s
    obtain ⟨e', hescape', hread'⟩ := ih
    exact ⟨e ++ e', by rw [hescape, hescape', Utf8.encode_append], hread.append hread'⟩

/-! ## Messages -/

/-- What a message starts with. -/
def header : List Char := ['{', '"', 'L', 'o', 'g', '"', ':', '"']

/-- What it ends with. -/
def closing : List Char := ['"', '}']

/-- `'Log'`. -/
def key : Str := Str.ofText "Log".toList

/-- A message is its text, escaped, between the header and the closing. -/
theorem message_eq (t : Bytes) :
    message v t = Utf8.encode header ++ Go.escape v t ++ Utf8.encode closing := by
  have hkey : Go.escape v (ascii "Log") = ascii "Log" := by
    simp [Go.escape, ascii, htmlSafeSet, Utf8.encode, String.utf8EncodeChar]
  rw [message, LogMessage.marshal, Go.encodeStruct]
  simp only [List.map_cons, List.map_nil, List.intercalate_singleton, Go.encodeString, hkey]
  simp [ascii, header, closing]

/-- A message has at most six bytes for each one of its text, and ten more. -/
theorem length_message_le (t : Bytes) : (message v t).length ≤ 6 * t.length + 10 := by
  have hheader : (Utf8.encode header).length = 8 := by decide
  have hclosing : (Utf8.encode closing).length = 2 := by decide
  have hescape := Go.length_escape_le v t
  rw [message_eq, List.length_append, List.length_append]
  omega

/-- And at least these ten. -/
theorem le_length_message (t : Bytes) : 10 ≤ (message v t).length := by
  have hheader : (Utf8.encode header).length = 8 := by decide
  have hclosing : (Utf8.encode closing).length = 2 := by decide
  rw [message_eq, List.length_append, List.length_append]
  omega

/-- A message, as characters. -/
theorem exists_message (v : Go.Version) (t : Bytes) :
    ∃ e, message v t = Utf8.encode (header ++ (e ++ closing)) ∧
      Reads e ((runes t).map Char.toNat) := by
  obtain ⟨e, hescape, hread⟩ := exists_escape v t
  refine ⟨e, ?_, hread⟩
  rw [message_eq, hescape, Utf8.encode_append, Utf8.encode_append, List.append_assoc]

theorem message_ne_nil (t : Bytes) : message v t ≠ [] := by
  obtain ⟨e, he, -⟩ := exists_message v t
  rw [he, ne_eq, Utf8.encode_eq_nil]
  exact List.cons_ne_nil _ _

/-- The escaped text and the closing are scanned up to the quote. -/
theorem Reads.scanUnits_closing {e : List Char} {us : List ℕ} (h : Reads e us) (s : List Char) :
    scanUnits (e ++ closing ++ s) = .ok (us, '}' :: s) := by
  have hclosing : scanUnits (closing ++ s) = .ok ([], '}' :: s) := rfl
  have hne : closing ++ s ≠ [] := List.cons_ne_nil _ _
  rw [List.append_assoc, h _ hne, hclosing]
  simp [Except.map]

/-! ## Parsing -/

/-- How an object goes on, or ends, after the value of its first member. -/
def afterLog (n : ℕ) : Str × List Char → Except Exception (Json × List Char)
  | (v, r) =>
    match skipWhitespace r with
    | '}' :: r => .ok (.dict [(key, .str v)], r)
    | ',' :: r => parseObject n [(key, .str v)] (skipWhitespace r)
    | _ => fail "Expecting ',' delimiter"

/-- After the header comes a string. -/
theorem scanOnce_header (n : ℕ) (s : List Char) :
    scanOnce (n + 3) (header ++ s) = scanString s >>= afterLog (n + 1) := by
  have hkey : scanString ('L' :: 'o' :: 'g' :: '"' :: ':' :: '"' :: s) =
    .ok (key, ':' :: '"' :: s) := rfl
  change parseObject (n + 2) [] ('"' :: 'L' :: 'o' :: 'g' :: '"' :: ':' :: '"' :: s) = _
  rw [parseObject.eq_def]
  change (scanString ('L' :: 'o' :: 'g' :: '"' :: ':' :: '"' :: s) >>= _) = _
  rw [hkey]
  change (scanOnce (n + 1) ('"' :: s) >>= _) = _
  rw [scanOnce.eq_def]
  change ((scanString s).map (Prod.map Json.str id) >>= _) = _
  cases scanString s <;> rfl

theorem loads_header (s : List Char) :
    loads (header ++ s) = (scanString s >>= afterLog (2 * s.length + 16)) >>= fun (obj, rest) =>
      if skipWhitespace rest = [] then .ok obj else fail "Extra data" := by
  have hfuel : 2 * (header ++ s).length + 2 = (2 * s.length + 15) + 3 := by
    simp only [List.length_append, header, List.length_cons, List.length_nil]
    omega
  rw [loads, hfuel]
  refine (if_neg (by simp [header])).trans ?_
  change (scanOnce (2 * s.length + 15 + 3) (header ++ s) >>= _) = _
  rw [scanOnce_header]

/-- The header is no value, nor is a part of it. -/
theorem loads_take_header : ∀ k ≤ 8, (loads (header.take k)).isOk = false := by
  decide

/-- A message is an object, with the runes of its text. -/
theorem loads_message {e : List Char} {t : Bytes} (h : Reads e ((runes t).map Char.toNat)) :
    loads (header ++ (e ++ closing)) = .ok (.dict [(key, .str (Str.ofText (runes t)))]) := by
  have hscan : scanString (e ++ closing) = .ok (Str.ofText (runes t), ['}']) := by
    have hunits := h.scanUnits_closing []
    rw [List.append_nil] at hunits
    rw [scanString, hunits, ← joinSurrogates_toNat]
    rfl
  rw [loads_header, hscan]
  rfl

/-- A string after the header that can be parsed, up to the closing brace and
    white space. -/
theorem exists_of_loads_header {s : List Char} {obj : Json} (h : loads (header ++ s) = .ok obj) :
    ∃ us r, scanUnits s = .ok (us, r) ∧ r ≠ [] ∧
      ∀ r', r = '}' :: r' → skipWhitespace r' = [] := by
  rw [loads_header, bind_eq_ok_iff] at h
  obtain ⟨⟨obj', rest⟩, hafter, hrest⟩ := h
  obtain ⟨⟨v, r⟩, hscan, hafter⟩ := bind_eq_ok_iff.1 hafter
  obtain ⟨⟨us, r⟩, hunits, ⟨⟩⟩ := map_eq_ok_iff.1 hscan
  refine ⟨us, r, hunits, ?_, ?_⟩
  · rintro rfl
    cases hafter
  · rintro r' rfl
    cases hafter
    dsimp only at hrest
    split at hrest
    · assumption
    · cases hrest

/-! ## Streams -/

/-- A stream, as characters, does not start with white space. -/
theorem exists_stream (v : Go.Version) (ts : List Bytes) :
    ∃ cs, Framing.stream (message v) ts = Utf8.encode cs ∧
      ∀ r, r <+: cs → skipWhitespace r = r := by
  induction ts with
  | nil =>
    refine ⟨[], rfl, fun r hr => ?_⟩
    rw [List.prefix_nil.1 hr]
    rfl
  | cons t ts ih =>
    obtain ⟨cs, hcs, -⟩ := ih
    obtain ⟨e, he, -⟩ := exists_message v t
    refine ⟨header ++ (e ++ closing) ++ cs, ?_, fun r hr => ?_⟩
    · rw [Framing.stream_cons, hcs, he, ← Utf8.encode_append]
    · cases r with
      | nil => rfl
      | cons c r =>
        obtain rfl : c = '{' := (List.cons_prefix_cons.1 hr).1
        rfl

/-- Of the starts of a stream, only the first message can be parsed. -/
theorem eq_message_of_loads {cs : List Char} {bs : Bytes} {ts : List Bytes} {obj : Json}
    (hne : cs ≠ []) (hstream : Utf8.encode cs ++ bs = Framing.stream (message v) ts)
    (h : loads cs = .ok obj) :
    ∃ t rest, ts = t :: rest ∧ Utf8.encode cs = message v t := by
  cases ts with
  | nil =>
    have hnil : Utf8.encode cs = [] := (List.append_eq_nil_iff.1 hstream).1
    exact absurd (Utf8.encode_eq_nil.1 hnil) hne
  | cons t rest =>
    refine ⟨t, rest, rfl, ?_⟩
    obtain ⟨e, he, hread⟩ := exists_message v t
    obtain ⟨ds, hds, hspace⟩ := exists_stream v rest
    have hencode : Utf8.encode cs ++ bs = Utf8.encode (header ++ (e ++ closing ++ ds)) := by
      rw [hstream, Framing.stream_cons, hds, he, ← Utf8.encode_append,
        List.append_assoc]
    obtain ⟨es, hes, -⟩ := Utf8.encode_eq_append hencode
    rcases List.append_eq_append_iff.1 hes with ⟨s, hcs, hs⟩ | ⟨s, hheader, -⟩
    · -- The string scanned is the text, also with the rest of the stream after it.
      rw [hcs] at h
      obtain ⟨us, r, hunits, hr, hclosed⟩ := exists_of_loads_header h
      have hall := scanUnits_append hunits es
      rw [← hs, hread.scanUnits_closing] at hall
      cases r with
      | nil => exact absurd rfl hr
      | cons c r =>
        obtain ⟨rfl, hrest⟩ := List.cons.inj (Prod.mk.inj (Except.ok.inj hall)).2
        have hnil : r = [] := by
          rw [← hspace r ⟨es, hrest.symm⟩]
          exact hclosed r rfl
        have hds : ds = es := by rw [hrest, hnil]; rfl
        rw [← hds] at hs
        rw [hcs, he, List.append_cancel_right hs]
    -- A part of the header cannot be parsed.
    · have htake : cs = header.take cs.length := by rw [hheader, List.take_left]
      have hlength : cs.length ≤ header.length := by rw [hheader, List.length_append]; omega
      have herror := loads_take_header cs.length hlength
      rw [← htake, h] at herror
      cases herror

end LogService.XdrJson
