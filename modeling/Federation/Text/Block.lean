import Federation.Text.Blank

/-!
Block strings: the text between triple quotes, its common indentation, and the way a text of several
lines is laid out between triple quotes.
-/

namespace Federation.Text.Block

/-- Lines end at a line feed, with or without a carriage return before it. The last line need not be
ended, and nothing after the last line feed is no line. The rules for block strings of the GraphQL
grammar let a carriage return end a line by itself; the program does not. -/
def lines : List Char → List (List Char)
  | [] => []
  | '\r' :: '\n' :: rest => [] :: lines rest
  | '\n' :: rest => [] :: lines rest
  | c :: rest =>
    match lines rest with
    | [] => [[c]]
    | line :: later => (c :: line) :: later

/-- All white space of Unicode counts, where that grammar knows only spaces and tabs. -/
def isBlankLine (line : List Char) : Bool := line.all isBlank

/-- How many bytes the white space at the start of a line takes. -/
def indentation (line : List Char) : Nat := (String.ofList (line.takeWhile isBlank)).utf8ByteSize

/-- The least indentation among the lines that are not blank. -/
def commonIndent (rest : List (List Char)) : Nat :=
  ((rest.filter fun line => !isBlankLine line).map indentation).min?.getD 0

/-- What is left of a line after a number of bytes. A character that the cut would divide goes as a
whole. -/
def dropBytes : Nat → List Char → List Char
  | 0, cs => cs
  | _ + 1, [] => []
  | n + 1, c :: cs => dropBytes (n + 1 - c.utf8Size) cs

/-- Takes the common indentation from every line but the first and drops blank lines at both ends. -/
def dedent (raw : List Char) : List Char :=
  match lines raw with
  | [] => []
  | first :: rest =>
    let indent := commonIndent rest
    let body := (first :: rest.map (dropBytes indent)).dropWhile isBlankLine
    let body := (body.reverse.dropWhile isBlankLine).reverse
    List.intercalate ['\n'] body

/-- Characters that may stand in a block string. -/
def isPlain (c : Char) : Bool := c = '\t' || c = '\n' || c = '\r' || ' ' ≤ c

/-- Reads up to the closing triple quote. An escaped triple quote stands for three quotes. -/
def readRaw : List Char → Option (List Char × List Char)
  | [] => none
  | '\\' :: '"' :: '"' :: '"' :: rest => do
    let (raw, rest) ← readRaw rest
    return ('"' :: '"' :: '"' :: raw, rest)
  | '"' :: '"' :: '"' :: rest => some ([], rest)
  | c :: rest =>
    if isPlain c then do
      let (raw, rest) ← readRaw rest
      return (c :: raw, rest)
    else none

theorem length_of_readRaw {cs raw rest : List Char} (h : readRaw cs = some (raw, rest)) :
    rest.length < cs.length := by
  fun_induction readRaw cs generalizing raw rest with
  | case1 => simp at h
  | case2 r ih =>
    simp only [Option.bind_eq_bind, Option.bind_eq_some_iff] at h
    obtain ⟨⟨t, r'⟩, read, same⟩ := h
    have := ih read
    simp_all
    omega
  | case3 r => simp_all; omega
  | case4 c r _ _ _ ih =>
    simp only [Option.bind_eq_bind, Option.bind_eq_some_iff] at h
    obtain ⟨⟨t, r'⟩, read, same⟩ := h
    have := ih read
    simp_all
    omega
  | case5 => simp at h

/-- The content of a block string whose opening quotes are read, and what follows its end. -/
def decode (cs : List Char) : Option (List Char × List Char) :=
  (readRaw cs).map fun (raw, rest) => (dedent raw, rest)

theorem length_of_decode {cs content rest : List Char} (h : decode cs = some (content, rest)) :
    rest.length < cs.length := by
  obtain ⟨⟨raw, rest'⟩, read, same⟩ := Option.map_eq_some_iff.1 h
  simp only [Prod.mk.injEq] at same
  exact same.2 ▸ length_of_readRaw read

/-- Escapes three quotes in a row. -/
def escapeQuotes : List Char → List Char
  | '"' :: '"' :: '"' :: rest => '\\' :: '"' :: '"' :: '"' :: escapeQuotes rest
  | c :: rest => c :: escapeQuotes rest
  | [] => []

/-- A text between triple quotes that stand on lines of their own, each line indented. -/
def encode (indent s : String) : String :=
  let written := (lines s.toList).map fun line => indent ++ String.ofList (escapeQuotes line) ++ "\n"
  indent ++ "\"\"\"\n" ++ String.join written ++ indent ++ "\"\"\""

end Federation.Text.Block
