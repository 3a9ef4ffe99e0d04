import LogService.Python.Json

/-!
# Scanning

What the scanners of `json.loads` do with the characters they are given.

* A scanned string is followed by the rest of the characters, and stays the
  same whatever is appended to them (`scanUnits_append`): a string that is cut
  off is never mistaken for a shorter one.
* Every scanner consumes something (`scanOnce_length_lt`), so the fuel that
  `loads` provides is enough (`loads_ne_recursionError`).
-/

namespace Python.Json

/-! ## Strings -/

/-- One more unit in front of a scanned string. -/
theorem exists_of_map_cons {u : ℕ} {s r : List Char} {us : List ℕ}
    (h : (scanUnits s).map (Prod.map (u :: ·) id) = .ok (us, r)) :
    ∃ vs, scanUnits s = .ok (vs, r) ∧ us = u :: vs := by
  obtain ⟨⟨vs, r'⟩, hs, h⟩ := map_eq_ok_iff.1 h
  cases h
  exact ⟨vs, hs, rfl⟩

theorem scanUnits_unicode {a b c d : Char} {u : ℕ} (h : decodeUXXXX a b c d = some u)
    {s : List Char} (hs : s ≠ []) :
    scanUnits ('\\' :: 'u' :: a :: b :: c :: d :: s) =
      (scanUnits s).map (Prod.map (u :: ·) id) := by
  obtain ⟨e, s, rfl⟩ := List.exists_cons_of_ne_nil hs
  simp [scanUnits, h]

theorem scanUnits_backslash {e c : Char} (h : backslash e = some c) (s : List Char) :
    scanUnits ('\\' :: e :: s) = (scanUnits s).map (Prod.map (c.toNat :: ·) id) := by
  have he : e ≠ 'u' := by rintro rfl; cases h
  simp [scanUnits, he, h]

theorem scanUnits_char {c : Char} (hq : c ≠ '"') (hb : c ≠ '\\') (hc : 0x1f < c.toNat)
    (s : List Char) : scanUnits (c :: s) = (scanUnits s).map (Prod.map (c.toNat :: ·) id) := by
  simp [scanUnits, hb, hc]

/-- A scanned string does not depend on what follows it. -/
theorem scanUnits_append {s r : List Char} {us : List ℕ} (h : scanUnits s = .ok (us, r))
    (t : List Char) : scanUnits (s ++ t) = .ok (us, r ++ t) := by
  fun_induction scanUnits s generalizing us with
  | case1 | case3 | case4 | case6 | case7 | case9 => cases h
  | case2 s => cases h; rfl
  | case5 a b c d s hne u hu ih =>
    obtain ⟨vs, hs, rfl⟩ := exists_of_map_cons h
    simp [scanUnits_unicode hu (List.append_ne_nil_of_left_ne_nil hne t), ih hs, Except.map]
  | case8 e s _ _ _ c hc ih =>
    obtain ⟨vs, hs, rfl⟩ := exists_of_map_cons h
    simp [scanUnits_backslash hc, ih hs, Except.map]
  | case10 c s hq _ _ _ hb hc ih =>
    obtain ⟨vs, hs, rfl⟩ := exists_of_map_cons h
    -- A backslash at the end is not followed by a closing quote.
    have hb : c ≠ '\\' := by
      rintro rfl
      cases s with
      | nil => cases hs
      | cons e s => exact hb e s rfl rfl
    simp [scanUnits_char hq hb (not_le.1 hc), ih hs, Except.map]

theorem scanUnits_length_lt {s r : List Char} {us : List ℕ} (h : scanUnits s = .ok (us, r)) :
    r.length < s.length := by
  fun_induction scanUnits s generalizing us with
  | case1 | case3 | case4 | case6 | case7 | case9 => cases h
  | case2 s => cases h; simp
  | case5 _ _ _ _ _ _ _ _ ih | case8 _ _ _ _ _ _ _ ih | case10 _ _ _ _ _ _ _ _ ih =>
    obtain ⟨vs, hs, rfl⟩ := exists_of_map_cons h
    have := ih hs
    simp only [List.length_cons]
    omega

theorem scanUnits_ne_recursionError (s : List Char) : scanUnits s ≠ .error .recursionError := by
  fun_induction scanUnits s with
  | case1 | case2 | case3 | case4 | case6 | case7 | case9 => simp [fail]
  | case5 _ _ _ _ _ _ _ _ ih | case8 _ _ _ _ _ _ _ ih | case10 _ _ _ _ _ _ _ _ ih =>
    exact fun h => ih (map_eq_error_iff.1 h)

theorem scanString_length_lt {s r : List Char} {v : Str} (h : scanString s = .ok (v, r)) :
    r.length < s.length := by
  obtain ⟨⟨us, r'⟩, hs, h⟩ := map_eq_ok_iff.1 h
  cases h
  exact scanUnits_length_lt hs

theorem scanString_ne_recursionError (s : List Char) : scanString s ≠ .error .recursionError :=
  fun h => scanUnits_ne_recursionError s (map_eq_error_iff.1 h)

/-- Characters, none of which is a surrogate, are not joined. -/
theorem joinSurrogates_toNat (cs : List Char) :
    joinSurrogates (cs.map Char.toNat) = Str.ofText cs := by
  induction cs with
  | nil => rfl
  | cons c cs ih =>
    cases cs with
    | nil => rfl
    | cons d ds =>
      have hc := not_surrogate c
      rw [List.map_cons, List.map_cons, joinSurrogates, if_neg (by omega), ← List.map_cons, ih]
      rfl

/-! ## Numbers, constants and white space -/

theorem digits_append (s : List Char) : (digits s).1 ++ (digits s).2 = s := by
  rw [digits, List.span_eq_takeWhile_dropWhile]
  exact List.takeWhile_append_dropWhile

theorem digits_length (s : List Char) :
    (digits s).1.length + (digits s).2.length = s.length := by
  rw [← List.length_append, digits_append]

theorem optional_length_le (p : Char → Bool) (s : List Char) :
    (optional p s).2.length ≤ s.length := by
  cases s with
  | nil => simp [optional]
  | cons c s => rw [optional]; split <;> simp

theorem matchInteger_length_lt {s : List Char} {i : List Char × List Char}
    (h : matchInteger s = some i) : i.2.length < s.length := by
  rw [matchInteger.eq_def] at h
  split at h
  · cases h; simp
  · split at h
    · cases h
    · next hd =>
      cases h
      have := digits_length s
      have := List.length_pos_iff.2 hd
      omega

theorem matchFraction_length_le (s : List Char) : (matchFraction s).2.length ≤ s.length := by
  rw [matchFraction.eq_def]
  split
  · next s =>
    have := digits_length s
    split <;> simp only [List.length_cons]
    · omega
    · omega
  · exact le_rfl

theorem matchExponent_length_le (s : List Char) : (matchExponent s).2.length ≤ s.length := by
  cases s with
  | nil => simp [matchExponent]
  | cons e s =>
    have h₁ := optional_length_le (fun c => c = '+' ∨ c = '-') s
    have h₂ := digits_length (optional (fun c => c = '+' ∨ c = '-') s).2
    rw [matchExponent]
    split <;> simp only [List.length_cons]
    · omega
    · omega

theorem matchNumber_length_lt {s : List Char} {n : List Char × List Char}
    (h : matchNumber s = some n) : n.2.length < s.length := by
  obtain ⟨i, hi, rfl⟩ := Option.map_eq_some_iff.1 h
  have h₁ := optional_length_le (· = '-') s
  have h₂ := matchInteger_length_lt hi
  have h₃ := matchFraction_length_le i.2
  have h₄ := matchExponent_length_le (matchFraction i.2).2
  dsimp only
  omega

theorem matchConstant_length_lt {s : List Char} {v : Json × List Char}
    (h : matchConstant s = some v) : v.2.length < s.length := by
  obtain ⟨⟨w, value⟩, hw, h⟩ := List.exists_of_findSome?_eq_some h
  obtain ⟨r, hr, rfl⟩ := Option.map_eq_some_iff.1 h
  obtain ⟨w', rfl, hw'⟩ := List.dropPrefix?_eq_some_iff.1 hr
  have hne : w ≠ [] := by
    simp only [constants, List.mem_cons, Prod.mk.injEq, List.not_mem_nil, or_false] at hw
    rcases hw with ⟨rfl, -⟩ | ⟨rfl, -⟩ | ⟨rfl, -⟩ | ⟨rfl, -⟩ | ⟨rfl, -⟩ | ⟨rfl, -⟩ <;> decide
  have := List.length_pos_iff.2 (eq_of_beq hw' ▸ hne)
  simp only [List.length_append]
  omega

theorem skipWhitespace_length_le (s : List Char) : (skipWhitespace s).length ≤ s.length :=
  (List.dropWhile_suffix _).length_le

/-- What white space is skipped before is no longer than what follows `c`. -/
theorem skipWhitespace_length_lt {s r : List Char} {c : Char} (h : skipWhitespace s = c :: r) :
    r.length < s.length := by
  have := skipWhitespace_length_le s
  rw [h, List.length_cons] at this
  omega

/-! ## Fuel -/

/-- The scanners consume something, with the fuel `n`. -/
structure Consumes (n : ℕ) : Prop where
  once : ∀ {s v r}, scanOnce n s = .ok (v, r) → r.length < s.length
  object : ∀ {items s v r}, parseObject n items s = .ok (v, r) → r.length < s.length
  array : ∀ {values s v r}, parseArray n values s = .ok (v, r) → r.length < s.length

theorem consumes (n : ℕ) : Consumes n := by
  induction n with
  | zero => constructor <;> · intros; contradiction
  | succ n ih =>
    refine ⟨@fun s v r h => ?_, @fun items s v r h => ?_, @fun values s v r h => ?_⟩
    · rw [scanOnce.eq_def] at h
      dsimp only at h
      split at h
      · -- A string.
        obtain ⟨⟨u, r'⟩, hs, h⟩ := map_eq_ok_iff.1 h
        cases h
        exact (scanString_length_lt hs).trans (Nat.lt_succ_self _)
      · -- An object.
        next s =>
        have := skipWhitespace_length_le s
        split at h
        · next hw => cases h; exact (skipWhitespace_length_lt hw).trans (Nat.lt_succ_self _)
        · have := ih.object h
          simp only [List.length_cons]
          omega
      · -- An array.
        next s =>
        have := skipWhitespace_length_le s
        split at h
        · next hw => cases h; exact (skipWhitespace_length_lt hw).trans (Nat.lt_succ_self _)
        · have := ih.array h
          simp only [List.length_cons]
          omega
      · -- A constant or a number.
        split at h
        · next hc => cases h; exact matchConstant_length_lt hc
        · split at h
          · next hn => cases h; exact matchNumber_length_lt hn
          · cases h
    · rw [parseObject.eq_def] at h
      dsimp only at h
      split at h
      · obtain ⟨⟨key, s₁⟩, hk, h⟩ := bind_eq_ok_iff.1 h
        have h₁ := scanString_length_lt hk
        dsimp only at h
        split at h
        · next s₂ hw =>
          obtain ⟨⟨value, s₃⟩, hv, h⟩ := bind_eq_ok_iff.1 h
          have h₂ := skipWhitespace_length_lt hw
          have h₃ := (ih.once hv).trans_le (skipWhitespace_length_le s₂)
          dsimp only at h
          split at h
          · next hw' =>
            cases h
            have := skipWhitespace_length_lt hw'
            simp only [List.length_cons]
            omega
          · next s₄ hw' =>
            have := skipWhitespace_length_lt hw'
            have := (ih.object h).trans_le (skipWhitespace_length_le s₄)
            simp only [List.length_cons]
            omega
          · cases h
        · cases h
      · cases h
    · rw [parseArray] at h
      obtain ⟨⟨value, s₁⟩, hv, h⟩ := bind_eq_ok_iff.1 h
      have h₁ := ih.once hv
      dsimp only at h
      split at h
      · next hw =>
        cases h
        have := skipWhitespace_length_lt hw
        omega
      · next s₂ hw =>
        have := skipWhitespace_length_lt hw
        have := (ih.array h).trans_le (skipWhitespace_length_le s₂)
        omega
      · cases h

/-- With the fuel `n`, the scanners do not run out of it on short enough
    strings. -/
structure Suffices (n : ℕ) : Prop where
  once : ∀ {s}, 2 * s.length + 1 ≤ n → scanOnce n s ≠ .error .recursionError
  object : ∀ {items s}, 2 * s.length + 1 ≤ n → parseObject n items s ≠ .error .recursionError
  array : ∀ {values s}, 2 * s.length + 2 ≤ n → parseArray n values s ≠ .error .recursionError

theorem suffices_fuel (n : ℕ) : Suffices n := by
  induction n with
  | zero => constructor <;> · intros; omega
  | succ n ih =>
    have hc := consumes n
    refine ⟨@fun s hn h => ?_, @fun items s hn h => ?_, @fun values s hn h => ?_⟩
    · rw [scanOnce.eq_def] at h
      dsimp only at h
      split at h
      · exact scanString_ne_recursionError _ (map_eq_error_iff.1 h)
      · next s =>
        have := skipWhitespace_length_le s
        rw [List.length_cons] at hn
        split at h
        · cases h
        · exact ih.object (by omega) h
      · next s =>
        have := skipWhitespace_length_le s
        rw [List.length_cons] at hn
        split at h
        · cases h
        · exact ih.array (by omega) h
      · split at h
        · cases h
        · split at h <;> cases h
    · rw [parseObject.eq_def] at h
      dsimp only at h
      split at h
      · rw [List.length_cons] at hn
        rcases bind_eq_error_iff.1 h with h | ⟨⟨key, s₁⟩, hk, h⟩
        · exact scanString_ne_recursionError _ h
        have h₁ := scanString_length_lt hk
        dsimp only at h
        split at h
        · next s₂ hw =>
          have h₂ := skipWhitespace_length_lt hw
          have h₃ := skipWhitespace_length_le s₂
          rcases bind_eq_error_iff.1 h with h | ⟨⟨value, s₃⟩, hv, h⟩
          · exact ih.once (by omega) h
          have h₄ := hc.once hv
          dsimp only at h
          split at h
          · cases h
          · next s₄ hw' =>
            have h₅ := skipWhitespace_length_lt hw'
            have h₆ := skipWhitespace_length_le s₄
            exact ih.object (by omega) h
          · cases h
        · cases h
      · cases h
    · rw [parseArray] at h
      rcases bind_eq_error_iff.1 h with h | ⟨⟨value, s₁⟩, hv, h⟩
      · exact ih.once (by omega) h
      have h₁ := hc.once hv
      dsimp only at h
      split at h
      · cases h
      · next s₂ hw =>
        have h₂ := skipWhitespace_length_lt hw
        have h₃ := skipWhitespace_length_le s₂
        exact ih.array (by omega) h
      · cases h

/-- The decoder never runs out of fuel. -/
theorem loads_ne_recursionError (s : List Char) : loads s ≠ .error .recursionError := by
  intro h
  rw [loads] at h
  split at h
  · cases h
  rcases bind_eq_error_iff.1 h with h | ⟨⟨obj, rest⟩, -, h⟩
  · have := skipWhitespace_length_le s
    exact (suffices_fuel _).once (by omega) h
  · dsimp only at h
    split at h <;> cases h

end Python.Json
