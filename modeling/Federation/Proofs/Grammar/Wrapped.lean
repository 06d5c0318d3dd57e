import Federation.Proofs.Grammar.Spelling

/-!
# Texts before a closing brace

A text that is followed by a blank and a closing brace is cut into the same tokens as by itself, and then comes the
brace, unless the text ends with a comment that swallows it.
-/

namespace Federation

/-- What ends a field set that is put between braces. -/
def Grammar.closing : List Char := [' ', '\x7d']

open Grammar (closing)

theorem takeWhile_append_closing {p : Char → Bool} (stops : p ' ' = false) (cs : List Char) :
    (cs ++ closing).takeWhile p = cs.takeWhile p := by
  induction cs with
  | nil => simp [closing, stops]
  | cons c cs ih => by_cases here : p c <;> simp [here, ih]

theorem dropWhile_append_closing {p : Char → Bool} (stops : p ' ' = false) (cs : List Char) :
    (cs ++ closing).dropWhile p = cs.dropWhile p ++ closing := by
  induction cs with
  | nil => simp [closing, stops]
  | cons c cs ih => by_cases here : p c <;> simp [here, ih]

/-- A text that starts with something other than some characters still does in front of a blank. -/
theorem ne_append_closing {front cs : List Char} (noBlank : ' ' ∉ front) (other : ∀ rest, cs ≠ front ++ rest)
    (later : List Char) : cs ++ closing ≠ front ++ later := by
  induction front generalizing cs with
  | nil => exact absurd rfl (other cs)
  | cons c front ih =>
    intro starts
    cases cs with
    | nil => exact absurd (List.cons.inj starts).1 (by rintro rfl; exact noBlank List.mem_cons_self)
    | cons d cs =>
      obtain ⟨rfl, continues⟩ := List.cons.inj starts
      refine ih (fun later => noBlank (List.mem_cons_of_mem _ later)) (fun rest same => ?_) continues
      exact other rest (congrArg (d :: ·) same)

/-! ### Strings -/

namespace Text

/-- A blank is no hexadecimal digit. -/
theorem Quoted.unicode?_blank {digits : List Char} (blank : ' ' ∈ digits) : Quoted.unicode? digits = none := by
  have none : digits.mapM Quoted.hexValue? = none := by
    induction digits with
    | nil => contradiction
    | cons d digits ih =>
      rw [List.mapM_cons]
      rcases List.mem_cons.mp blank with rfl | later
      · rfl
      · rw [ih later]
        cases Quoted.hexValue? d <;> rfl
  rw [Quoted.unicode?, none]
  rfl

theorem Quoted.decode_closing (cs : List Char) :
    Quoted.decode (cs ++ closing) = (Quoted.decode cs).map (Prod.map id (· ++ closing)) := by
  fun_induction Quoted.decode cs with
  | case1 => rfl
  | case2 rest => rfl
  | case3 a b c d rest ih =>
    simp only [List.cons_append, Quoted.decode, ih]
    cases Quoted.unicode? [a, b, c, d] <;> cases Quoted.decode rest <;> rfl
  | case4 e rest noUnicode ih =>
    by_cases unicode : e = 'u'
    · subst unicode
      -- Too few digits are followed by a blank before there are four.
      rcases rest with _ | ⟨a, _ | ⟨b, _ | ⟨c, _ | ⟨d, rest⟩⟩⟩⟩
      · rfl
      · rfl
      · simp [closing, Quoted.decode, Quoted.unicode?_blank, Quoted.unescape?]
      · simp [closing, Quoted.decode, Quoted.unicode?_blank, Quoted.unescape?]
      · exact absurd rfl (noUnicode a b c d rest rfl)
    · rw [List.cons_append, List.cons_append, Quoted.decode, ih]
      · cases Quoted.unescape? e <;> cases Quoted.decode rest <;> rfl
      · exact fun _ _ _ _ _ same => absurd same unicode
  | case5 c rest noQuote noUnicode noEscape plain ih =>
    rw [List.cons_append, Quoted.decode, if_pos plain, ih]
    · cases Quoted.decode rest <;> rfl
    · exact noQuote
    · intro _ _ _ _ _ escape
      simp [escape] at plain
    · intro _ _ escape
      simp [escape] at plain
  | case6 c rest noQuote noUnicode noEscape plain =>
    by_cases escape : c = '\\'
    · subst escape
      cases rest with
      | nil => rfl
      | cons e rest => exact absurd rfl (noEscape e rest rfl)
    · rw [List.cons_append, Quoted.decode, if_neg plain]
      · rfl
      · exact noQuote
      · exact fun _ _ _ _ _ same => absurd same escape
      · exact fun _ _ same => absurd same escape

theorem Block.readRaw_closing (cs : List Char) :
    Block.readRaw (cs ++ closing) = (Block.readRaw cs).map (Prod.map id (· ++ closing)) := by
  fun_induction Block.readRaw cs with
  | case1 => rfl
  | case2 rest ih =>
    simp only [List.cons_append, Block.readRaw, ih]
    cases Block.readRaw rest <;> rfl
  | case3 rest => rfl
  | case4 c rest noEscape noEnd plain ih =>
    -- A quote or an escape that is incomplete stays so in front of a blank.
    rw [List.cons_append, Block.readRaw, if_pos plain, ih]
    · cases Block.readRaw rest <;> rfl
    · exact fun later escape => ne_append_closing (by decide : ' ' ∉ ['"', '"', '"'])
        (fun rest' => noEscape rest' escape) later
    · exact fun later quote => ne_append_closing (by decide : ' ' ∉ ['"', '"']) (fun rest' => noEnd rest' quote) later
  | case5 c rest noEscape noEnd plain =>
    rw [List.cons_append, Block.readRaw, if_neg plain]
    · rfl
    · exact fun later escape => ne_append_closing (by decide : ' ' ∉ ['"', '"', '"'])
        (fun rest' => noEscape rest' escape) later
    · exact fun later quote => ne_append_closing (by decide : ' ' ∉ ['"', '"']) (fun rest' => noEnd rest' quote) later

theorem Block.decode_closing (cs : List Char) :
    Block.decode (cs ++ closing) = (Block.decode cs).map (Prod.map id (· ++ closing)) := by
  unfold Block.decode
  rw [readRaw_closing]
  cases Block.readRaw cs <;> rfl

end Text

namespace Grammar.Token

/-! ### Numbers -/

theorem digits?_closing (cs : List Char) :
    digits? (cs ++ closing) = (digits? cs).map (Prod.map id (· ++ closing)) := by
  unfold digits?
  rw [takeWhile_append_closing rfl, dropWhile_append_closing rfl]
  split <;> rfl

theorem fraction?_closing (cs : List Char) :
    fraction? (cs ++ closing) = (fraction? cs).map (Prod.map id (· ++ closing)) := by
  cases cs with
  | nil => rfl
  | cons c cs =>
    by_cases point : c = '.'
    · subst point
      rw [List.cons_append, fraction?, digits?_closing, fraction?]
      cases digits? cs <;> rfl
    · rw [List.cons_append, fraction?, fraction?]
      · rfl
      · simpa using point
      · simpa using point

theorem exponentSign_closing (cs : List Char) :
    exponentSign (cs ++ closing) = Prod.map id (· ++ closing) (exponentSign cs) := by
  cases cs with
  | nil => rfl
  | cons c cs =>
    by_cases minus : c = '-'
    · subst minus
      rfl
    by_cases plus : c = '+'
    · subst plus
      rfl
    · rw [List.cons_append, exponentSign, exponentSign]
      · rfl
      all_goals simpa using by assumption

theorem exponent?_closing (cs : List Char) :
    exponent? (cs ++ closing) = (exponent? cs).map (Prod.map id (· ++ closing)) := by
  cases cs with
  | nil => rfl
  | cons c cs =>
    rw [List.cons_append, exponent?, exponent?]
    split
    · dsimp only
      rw [exponentSign_closing, Prod.map_snd, digits?_closing]
      cases digits? (exponentSign cs).2 <;> rfl
    · rfl

theorem whole?_closing (cs : List Char) :
    whole? (cs ++ closing) = (whole? cs).map (Prod.map id (· ++ closing)) := by
  unfold whole?
  rw [digits?_closing]
  rcases digits? cs with _ | ⟨ds, rest⟩
  · rfl
  · rw [Option.map_some, Prod.map_apply]
    split <;> split <;> simp_all

theorem clings_closing (cs : List Char) : clings (cs ++ closing) = clings cs := by
  cases cs <;> rfl

theorem unsigned?_closing (negative : Bool) (cs : List Char) :
    unsigned? negative (cs ++ closing) = (unsigned? negative cs).map (Prod.map id (· ++ closing)) := by
  unfold unsigned?
  rw [whole?_closing]
  rcases whole? cs with _ | ⟨whole, rest⟩
  · rfl
  simp only [Option.map_some, Prod.map_apply, id_eq, Option.bind_eq_bind, Option.bind_some, fraction?_closing]
  rcases fraction? rest with _ | ⟨fraction, rest⟩
  · rfl
  simp only [Option.map_some, Prod.map_apply, id_eq, Option.bind_some, exponent?_closing]
  rcases exponent? rest with _ | ⟨exponent, rest⟩
  · rfl
  simp only [Option.map_some, Prod.map_apply, id_eq, Option.bind_some, clings_closing]
  split <;> rfl

/-! ### Tokens -/

/-- What starts no string, number with a sign or spread is a mark, a name or a number. -/
theorem next?_of_plain {c : Char} {rest : List Char} (noSpread : ∀ later, c = '.' → rest ≠ '.' :: '.' :: later)
    (noQuote : c ≠ '"') (noMinus : c ≠ '-') :
    next? (c :: rest) =
      if isMark c then some (mark c, rest)
      else if isNameStart c then
        some (name (String.ofList (c :: rest.takeWhile isNamePart)), rest.dropWhile isNamePart)
      else unsigned? false (c :: rest) := by
  rw [next?]
  · exact noSpread
  · exact fun _ quote => absurd quote noQuote
  · exact noQuote
  · exact noMinus

theorem next?_closing {cs : List Char} (some_char : cs ≠ []) :
    next? (cs ++ closing) = (next? cs).map (Prod.map id (· ++ closing)) := by
  -- The first characters decide what is read. The blank is none of those that could make it something else.
  rcases cs with _ | ⟨c, rest⟩
  · contradiction
  by_cases quote : c = '"'
  · subst quote
    by_cases block : ∃ rest', rest = '"' :: '"' :: rest'
    · obtain ⟨rest', rfl⟩ := block
      simp only [List.cons_append, next?, Text.Block.decode_closing]
      cases Text.Block.decode rest' <;> rfl
    · rw [List.cons_append, next?, Text.Quoted.decode_closing, next?]
      · cases Text.Quoted.decode rest <;> rfl
      · exact fun rest' starts => block ⟨rest', starts⟩
      · exact ne_append_closing (by decide : ' ' ∉ ['"', '"']) fun rest' starts => block ⟨rest', starts⟩
  by_cases minus : c = '-'
  · subst minus
    exact unsigned?_closing true rest
  by_cases spread : c = '.' ∧ ∃ rest', rest = '.' :: '.' :: rest'
  · obtain ⟨rfl, rest', rfl⟩ := spread
    rfl
  rw [List.cons_append, next?_of_plain _ quote minus, next?_of_plain _ quote minus, takeWhile_append_closing rfl,
    dropWhile_append_closing rfl, ← List.cons_append, unsigned?_closing]
  · split
    · rfl
    · split <;> rfl
  · exact fun later point starts => spread ⟨point, later, starts⟩
  · exact fun later point => ne_append_closing (by decide : ' ' ∉ ['.', '.'])
      (fun rest' starts => spread ⟨point, rest', starts⟩) later

theorem scan_brace : scan closing = some [.mark '\x7d'] := by
  have brace : Delimits "\x7d" [.mark '\x7d'] := delimits_mark rfl rfl
  have alone := brace []
  rw [scan] at alone
  exact (scan_ignored rfl _).trans alone

/-- The tokens of a text before a closing brace are those of the text, and the brace unless a comment swallows it. -/
theorem scan_closing (cs : List Char) :
    scan (cs ++ closing) = (scan cs).map (· ++ [.mark '\x7d']) ∨ scan (cs ++ closing) = scan cs := by
  fun_induction scan cs with
  | case1 => exact .inl scan_brace
  | case2 c rest ignored ih => rwa [List.cons_append, scan_ignored ignored]
  | case3 rest _ ih =>
    -- A comment ends with its line, and then the brace comes later, or it reaches the end and swallows the brace.
    have comment (later : List Char) : scan ('#' :: later) = scan (later.dropWhile (!isLineEnd ·)) := by
      rw [scan, if_neg (by decide), if_pos rfl]
    rw [List.cons_append, comment, List.dropWhile_append]
    split
    · next ended =>
      rw [List.isEmpty_iff.mp ended]
      exact .inr rfl
    · exact ih
  | case4 c rest kept noComment nothing =>
    left
    rw [List.cons_append, scan, if_neg kept, if_neg noComment, ← List.cons_append]
    split
    · rfl
    · next read =>
      rw [next?_closing (List.cons_ne_nil c rest), nothing] at read
      contradiction
  | case5 c rest kept noComment t rest' read ih =>
    have taken : next? (c :: (rest ++ closing)) = some (t, rest' ++ closing) := by
      rw [← List.cons_append, next?_closing (List.cons_ne_nil c rest), read]
      rfl
    rw [List.cons_append, scan_of_next? (Bool.eq_false_iff.mpr kept) noComment taken]
    rcases ih with brace | swallowed
    · left
      rw [brace]
      cases scan rest' <;> rfl
    · right
      rw [swallowed]
      rfl

end Grammar.Token

end Federation
