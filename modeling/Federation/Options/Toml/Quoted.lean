import Federation.Text.Quoted

/-!
Strings in TOML. A string stands between single or double quotes, or between three of them if it goes
over several lines. A backslash starts an escape between double quotes only.
-/

namespace Federation.Options.Toml

/-- Space and tab separate the parts of a line. -/
def isSpace (c : Char) : Bool := c = ' ' || c = '\t'

/-- Control characters other than the tab. They may stand nowhere but at the end of a line. -/
def isForbidden (c : Char) : Bool := c ≠ '\t' && (c.toNat < 0x20 || c.toNat = 0x7F)

/-- The character that a letter after a backslash stands for. A slash needs no escape here. -/
def unescape? (c : Char) : Option Char := if c = '/' then none else Text.Quoted.unescape? c

/-- Whether nothing but spaces stands before the end of the line. -/
def isLineEnd (cs : List Char) : Bool := (cs.dropWhile isSpace).head? = some '\n'

/-- What a content with escapes stands for. A line end that is escaped is left out together with the
white space after it, which is what is being skipped. -/
def unescaped? (skipping : Bool) : List Char → Option (List Char)
  | [] => some []
  | '\\' :: 'u' :: a :: b :: c :: d :: rest => do
    let u ← Text.Quoted.unicode? [a, b, c, d]
    return u :: (← unescaped? false rest)
  | '\\' :: 'U' :: a :: b :: c :: d :: e :: f :: g :: h :: rest => do
    let u ← Text.Quoted.unicode? [a, b, c, d, e, f, g, h]
    return u :: (← unescaped? false rest)
  | ['\\'] => none
  | '\\' :: e :: rest =>
    if isLineEnd (e :: rest) then unescaped? true rest
    else do
      let u ← unescape? e
      return u :: (← unescaped? false rest)
  | c :: rest =>
    if skipping && (isSpace c || c = '\n') then unescaped? true rest
    else (unescaped? false rest).map (c :: ·)

/-- A closing delimiter at the start of a text: the quotes before it that belong to the string, and
what follows it. -/
abbrev Closing := List Char → Option (List Char × List Char)

/-- A quote closes a string on one line. -/
def closeOne (quote : Char) : Closing
  | [] => none
  | c :: rest => if c = quote then some ([], rest) else none

/-- Three quotes close a string over several lines. Up to two more may stand before them. -/
def closeThree (quote : Char) : Closing := fun cs =>
  let run := (cs.takeWhile (· = quote)).length
  if run < 3 then none else some (List.replicate (min run 5 - 3) quote, cs.drop (min run 5))

/-- The content up to the closing delimiter, as it is written, and what follows the delimiter. An
`escaped` character closes nothing; where there are `escapes`, the one after a backslash is escaped. -/
def content? (close : Closing) (escapes : Bool) (escaped : Bool) :
    List Char → Option (List Char × List Char)
  | [] => none
  | c :: rest =>
    match if escaped then none else close (c :: rest) with
    | some found => some found
    | none =>
      (content? close escapes (escapes && !escaped && c = '\\') rest).map
        fun (written, rest) => (c :: written, rest)

def withLineFeeds : List Char → List Char
  | '\r' :: '\n' :: rest => '\n' :: withLineFeeds rest
  | c :: rest => c :: withLineFeeds rest
  | [] => []

/-- A content without the line end that it may start with. -/
def withoutFirstLineEnd : List Char → List Char
  | '\n' :: rest => rest
  | cs => cs

/-- The meaning of a content, if all its characters are permitted. -/
def meaning? (permitted : Char → Bool) (escapes : Bool) (content : List Char) : Option (List Char) :=
  if !content.all permitted then none
  else if escapes then unescaped? false content
  else some content

def restOfLine? (quote : Char) (escapes : Bool) (cs : List Char) : Option (List Char × List Char) := do
  let (written, rest) ← content? (closeOne quote) escapes false cs
  return (← meaning? (!isForbidden ·) escapes written, rest)

def restOfLines? (quote : Char) (escapes : Bool) (cs : List Char) : Option (List Char × List Char) := do
  let (written, rest) ← content? (closeThree quote) escapes false cs
  let content := withoutFirstLineEnd (withLineFeeds written)
  return (← meaning? (fun c => c = '\n' || !isForbidden c) escapes content, rest)

def quoted? : List Char → Option (List Char × List Char)
  | '"' :: rest => restOfLine? '"' true rest
  | '\'' :: rest => restOfLine? '\'' false rest
  | _ => none

def string? : List Char → Option (List Char × List Char)
  | '"' :: '"' :: '"' :: rest => restOfLines? '"' true rest
  | '\'' :: '\'' :: '\'' :: rest => restOfLines? '\'' false rest
  | cs => quoted? cs

theorem length_of_closeOne {quote : Char} {cs more rest : List Char}
    (h : closeOne quote cs = some (more, rest)) : rest.length ≤ cs.length := by
  cases cs with
  | nil => simp [closeOne] at h
  | cons c cs =>
    simp only [closeOne] at h
    split at h <;> simp_all

theorem length_of_closeThree {quote : Char} {cs more rest : List Char}
    (h : closeThree quote cs = some (more, rest)) : rest.length ≤ cs.length := by
  simp only [closeThree] at h
  split at h
  · simp at h
  · simp only [Option.some.injEq, Prod.mk.injEq] at h
    obtain ⟨-, rfl⟩ := h
    simp

theorem length_of_content? {close : Closing} {escapes escaped : Bool}
    (closes : ∀ {cs more rest}, close cs = some (more, rest) → rest.length ≤ cs.length)
    {cs written rest : List Char} (h : content? close escapes escaped cs = some (written, rest)) :
    rest.length ≤ cs.length := by
  induction cs generalizing escaped written rest with
  | nil => simp [content?] at h
  | cons c cs ih =>
    unfold content? at h
    split at h
    · next closed =>
      split at closed
      · simp at closed
      · exact closes (closed.trans h)
    · obtain ⟨⟨w, r⟩, read, same⟩ := Option.map_eq_some_iff.1 h
      have := ih read
      simp_all
      omega

theorem length_of_restOfLine? {quote : Char} {escapes : Bool} {cs s rest : List Char}
    (h : restOfLine? quote escapes cs = some (s, rest)) : rest.length ≤ cs.length := by
  simp only [restOfLine?, Option.bind_eq_bind, Option.bind_eq_some_iff] at h
  obtain ⟨⟨written, r⟩, read, _, _, same⟩ := h
  have := length_of_content? length_of_closeOne read
  simp_all

theorem length_of_restOfLines? {quote : Char} {escapes : Bool} {cs s rest : List Char}
    (h : restOfLines? quote escapes cs = some (s, rest)) : rest.length ≤ cs.length := by
  simp only [restOfLines?, Option.bind_eq_bind, Option.bind_eq_some_iff] at h
  obtain ⟨⟨written, r⟩, read, _, _, same⟩ := h
  have := length_of_content? length_of_closeThree read
  simp_all

theorem length_of_quoted? {cs s rest : List Char} (h : quoted? cs = some (s, rest)) :
    rest.length ≤ cs.length := by
  unfold quoted? at h
  split at h
  · have := length_of_restOfLine? h
    simp only [List.length_cons]
    omega
  · have := length_of_restOfLine? h
    simp only [List.length_cons]
    omega
  · simp at h

theorem length_of_string? {cs s rest : List Char} (h : string? cs = some (s, rest)) :
    rest.length ≤ cs.length := by
  unfold string? at h
  split at h
  · have := length_of_restOfLines? h
    simp only [List.length_cons]
    omega
  · have := length_of_restOfLines? h
    simp only [List.length_cons]
    omega
  · exact length_of_quoted? h

end Federation.Options.Toml
