import Federation.Text.Quoted

/-!
Quoted strings read back. Every character is escaped to something that stands for it, and nothing
between the quotes is taken for the closing one.
-/

namespace Federation.Text.Quoted

theorem isControl_iff {c : Char} : isControl c = true ↔ c.toNat < 32 ∨ 127 ≤ c.toNat ∧ c.toNat < 160 := by
  simp [isControl]

/-- Numeric escapes name the character that they are written for. -/
theorem unicode?_hex4_of_lt : ∀ n < 160, unicode? (hex4 n) = some (Char.ofNat n) := by decide +kernel

theorem unicode?_hex4 {c : Char} (control : isControl c = true) :
    unicode? (hex4 c.toNat) = some c := by
  have small : c.toNat < 160 := by have := isControl_iff.1 control; omega
  rw [unicode?_hex4_of_lt c.toNat small, Char.ofNat_toNat]

theorem isPlain_of_not_isControl {c : Char} (plain : isControl c = false) : isPlain c = true := by
  have low : 32 ≤ c.toNat := by
    have : ¬ (c.toNat < 32 ∨ 127 ≤ c.toNat ∧ c.toNat < 160) := by
      rw [← isControl_iff, plain]
      exact Bool.false_ne_true
    omega
  have : ' ' ≤ c := low
  simp [isPlain, this]

/-- A letter after a backslash is read as the character that it stands for. -/
theorem decode_short {e c : Char} (other : e ≠ 'u') (means : unescape? e = some c) (cs : List Char) :
    decode ('\\' :: e :: cs) = (decode cs).map fun (s, rest) => (c :: s, rest) := by
  rw [decode]
  · simp only [means, Option.bind_eq_bind, Option.bind_some, Option.pure_def]
    cases decode cs <;> rfl
  · intro a b c d rest same
    exact absurd same other

theorem decode_numeric {c : Char} (control : isControl c = true) (cs : List Char) :
    decode ('\\' :: 'u' :: hex4 c.toNat ++ cs) = (decode cs).map fun (s, rest) => (c :: s, rest) := by
  have means := unicode?_hex4 control
  simp only [hex4, List.cons_append, List.nil_append] at means ⊢
  rw [decode]
  simp only [means, Option.bind_eq_bind, Option.bind_some, Option.pure_def]
  cases decode cs <;> rfl

theorem decode_plain {c : Char} (plain : isPlain c = true) (noBackslash : c ≠ '\\')
    (noQuote : c ≠ '"') (cs : List Char) :
    decode (c :: cs) = (decode cs).map fun (s, rest) => (c :: s, rest) := by
  rw [decode]
  · simp only [noBackslash, plain, ne_eq, not_false_eq_true, decide_true, Bool.and_self, if_true,
      Option.bind_eq_bind, Option.pure_def]
    cases decode cs <;> rfl
  · exact noQuote
  · intro a b c d rest same
    exact absurd same noBackslash
  · intro e rest same
    exact absurd same noBackslash

/-- The escaped form of a character is read as that character. -/
theorem decode_escape (c : Char) (cs : List Char) :
    decode (escape c ++ cs) = (decode cs).map fun (s, rest) => (c :: s, rest) := by
  by_cases isReturn : c = '\r'
  · subst isReturn; exact decode_short (by decide) rfl cs
  by_cases isFeed : c = '\n'
  · subst isFeed; exact decode_short (by decide) rfl cs
  by_cases isTab : c = '\t'
  · subst isTab; exact decode_short (by decide) rfl cs
  by_cases isBackslash : c = '\\'
  · subst isBackslash; exact decode_short (by decide) rfl cs
  by_cases isQuote : c = '"'
  · subst isQuote; exact decode_short (by decide) rfl cs
  -- What is left has no letter of its own: a number for control characters, else the character.
  simp only [escape, isReturn, isFeed, isTab, isBackslash, isQuote, if_false]
  split
  · next control => exact decode_numeric control cs
  · next noControl =>
    have plain := isPlain_of_not_isControl (Bool.eq_false_iff.2 noControl)
    exact decode_plain plain isBackslash isQuote cs

/-- A text between quotes is read up to its closing quote, whatever follows. -/
theorem decode_flatMap_escape (s rest : List Char) :
    decode (s.flatMap escape ++ '"' :: rest) = some (s, rest) := by
  induction s with
  | nil => simp [decode]
  | cons c s ih =>
    rw [List.flatMap_cons, List.append_assoc, decode_escape, ih]
    rfl

theorem encode_append (s : String) (rest : List Char) :
    (encode s).toList ++ rest = '"' :: (s.toList.flatMap escape ++ '"' :: rest) := by
  simp [encode]

/-- Only the empty text has a quote right after the opening one. -/
theorem head?_flatMap_escape {s : List Char} (some_char : s ≠ []) (rest : List Char) :
    (s.flatMap escape ++ rest).head? ≠ some '"' := by
  cases s with
  | nil => exact absurd rfl some_char
  | cons c s =>
    simp only [List.flatMap_cons, List.append_assoc]
    unfold escape
    repeat' split
    all_goals simp [*]

end Federation.Text.Quoted
