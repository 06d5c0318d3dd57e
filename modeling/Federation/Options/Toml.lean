import Federation.Options.Toml.Quoted
import Federation.Table

/-!
Settings files in TOML: pairs of a key and a scalar, blank lines and comments. Settings have no place
for tables, arrays, floating-point numbers and dates, so a file with one of them is refused as a whole,
and so is one in which a key stands twice.
-/

namespace Federation.Options.Toml

/-- What a key is set to. -/
inductive Scalar
  | string (s : String)
  | integer (n : Int)
  | boolean (b : Bool)
  deriving DecidableEq

/-- Characters of a key without quotes. -/
def isBareKey (c : Char) : Bool := c.isAlphanum || c = '_' || c = '-'

/-- A key and what follows it. A key with quotes stands on one line. -/
def key? (cs : List Char) : Option (String × List Char) :=
  match quoted? cs with
  | some (s, rest) => some (String.ofList s, rest)
  | none =>
    let word := cs.takeWhile isBareKey
    if word.isEmpty then none else some (String.ofList word, cs.dropWhile isBareKey)

/-- Digits of a base. One underscore may stand between two of them. -/
def digits? (base n : Nat) : List Char → Option Nat
  | [] => none
  | c :: rest => do
    let d ← (Text.Quoted.hexValue? c).filter (· < base)
    let n := base * n + d
    match rest with
    | [] => return n
    | '_' :: rest => digits? base n rest
    | rest => digits? base n rest

/-- A decimal number. It starts with a zero only if it is zero. -/
def decimal? : List Char → Option Nat
  | ['0'] => some 0
  | '0' :: _ => none
  | cs => digits? 10 0 cs

/-- An integer: a decimal number, perhaps with a sign, or digits after the mark of another base. -/
def integer? : List Char → Option Int
  | '0' :: 'x' :: cs => (digits? 16 0 cs).map Int.ofNat
  | '0' :: 'o' :: cs => (digits? 8 0 cs).map Int.ofNat
  | '0' :: 'b' :: cs => (digits? 2 0 cs).map Int.ofNat
  | '+' :: cs => (decimal? cs).map Int.ofNat
  | '-' :: cs => (decimal? cs).map fun n => -Int.ofNat n
  | cs => (decimal? cs).map Int.ofNat

/-- Integers have sixty-four bits, one of them for the sign. -/
def fits (n : Int) : Bool := Int64.minValue.toInt ≤ n && n ≤ Int64.maxValue.toInt

def word? (word : List Char) : Option Scalar :=
  if word = "true".toList then some (.boolean true)
  else if word = "false".toList then some (.boolean false)
  else ((integer? word).filter fits).map .integer

/-- Characters of a scalar without quotes. -/
def isWordChar (c : Char) : Bool := isBareKey c || c = '+'

/-- A scalar and what follows it. -/
def scalar? (cs : List Char) : Option (Scalar × List Char) :=
  match string? cs with
  | some (s, rest) => some (.string (String.ofList s), rest)
  | none => (word? (cs.takeWhile isWordChar)).map fun v => (v, cs.dropWhile isWordChar)

/-- A text without the comment that it may start with. -/
def afterComment : List Char → List Char
  | '#' :: comment => comment.dropWhile (!isForbidden ·)
  | cs => cs

/-- What follows the end of a line on which nothing is left but blanks and a comment. -/
def endOfLine? (cs : List Char) : Option (List Char) :=
  match afterComment (cs.dropWhile isSpace) with
  | [] => some []
  | '\n' :: rest => some rest
  | '\r' :: '\n' :: rest => some rest
  | _ => none

def pair? (cs : List Char) : Option ((String × Scalar) × List Char) := do
  let (key, rest) ← key? (cs.dropWhile isSpace)
  match rest.dropWhile isSpace with
  | '=' :: rest =>
    let (value, rest) ← scalar? (rest.dropWhile isSpace)
    return ((key, value), ← endOfLine? rest)
  | _ => none

/-- The pair that a text starts with, which is none where its first line has nothing on it, and what
follows the pair's line. -/
def entry? (cs : List Char) : Option (Option (String × Scalar) × List Char) :=
  match endOfLine? cs with
  | some rest => some (none, rest)
  | none => (pair? cs).map fun (pair, rest) => (some pair, rest)

theorem length_of_key? {cs rest : List Char} {key : String} (h : key? cs = some (key, rest)) :
    rest.length ≤ cs.length := by
  unfold key? at h
  split at h
  · next read =>
    have := length_of_quoted? read
    simp_all
  · have := (List.dropWhile_sublist (l := cs) isBareKey).length_le
    simp_all

theorem length_of_scalar? {cs rest : List Char} {v : Scalar} (h : scalar? cs = some (v, rest)) :
    rest.length ≤ cs.length := by
  unfold scalar? at h
  split at h
  · next read =>
    have := length_of_string? read
    simp_all
  · obtain ⟨_, -, same⟩ := Option.map_eq_some_iff.1 h
    obtain ⟨-, rfl⟩ := Prod.mk.inj same
    exact (List.dropWhile_sublist isWordChar).length_le

theorem length_afterComment_le (cs : List Char) : (afterComment cs).length ≤ cs.length := by
  unfold afterComment
  split
  · next comment =>
    have := (List.dropWhile_sublist (l := comment) (!isForbidden ·)).length_le
    simp only [List.length_cons]
    omega
  · exact Nat.le_refl _

/-- Where a line ends, either the text ends too or something is taken from it. -/
theorem length_of_endOfLine? {cs rest : List Char} (h : endOfLine? cs = some rest) :
    rest = [] ∨ rest.length < cs.length := by
  have shorter := length_afterComment_le (cs.dropWhile isSpace)
  have := (List.dropWhile_sublist (l := cs) isSpace).length_le
  unfold endOfLine? at h
  split at h
  · exact .inl (by simp_all)
  all_goals simp_all
  all_goals omega

theorem length_of_pair? {cs rest : List Char} {pair : String × Scalar}
    (h : pair? cs = some (pair, rest)) : rest.length < cs.length := by
  simp only [pair?, Option.bind_eq_bind, Option.bind_eq_some_iff] at h
  obtain ⟨⟨key, r₁⟩, read₁, h⟩ := h
  have := length_of_key? read₁
  have := (List.dropWhile_sublist (l := cs) isSpace).length_le
  dsimp only at *
  have := (List.dropWhile_sublist (l := r₁) isSpace).length_le
  split at h
  · next r₂ equals =>
    simp only [Option.bind_eq_some_iff] at h
    obtain ⟨⟨value, r₃⟩, read₂, r₄, read₃, same⟩ := h
    have := length_of_scalar? read₂
    have := (List.dropWhile_sublist (l := r₂) isSpace).length_le
    simp only [equals, List.length_cons] at *
    rcases length_of_endOfLine? read₃ with rfl | shorter <;> simp_all <;> omega
  · simp at h

theorem length_of_entry? {c : Char} {cs rest : List Char} {pair : Option (String × Scalar)}
    (h : entry? (c :: cs) = some (pair, rest)) : rest.length < (c :: cs).length := by
  unfold entry? at h
  split at h
  · next ended =>
    simp only [Option.some.injEq, Prod.mk.injEq] at h
    obtain ⟨-, rfl⟩ := h
    rcases length_of_endOfLine? ended with rfl | shorter
    · simp
    · exact shorter
  · obtain ⟨⟨found, r⟩, read, same⟩ := Option.map_eq_some_iff.1 h
    have := length_of_pair? read
    simp_all

def pairs? : List Char → Option (List (String × Scalar))
  | [] => some []
  | c :: cs =>
    match _ : entry? (c :: cs) with
    | none => none
    | some (pair, rest) => (pairs? rest).map (pair.toList ++ ·)
termination_by cs => cs.length
decreasing_by exact length_of_entry? (by assumption)

/-- A file without the mark of byte order that it may start with. -/
def withoutMark : List Char → List Char
  | '\uFEFF' :: rest => rest
  | cs => cs

/-- The pairs of a file. No key stands twice. -/
def read? (text : String) : Option (Table String Scalar) := do
  let pairs ← pairs? (withoutMark text.toList)
  pairs.foldlM
    (fun table (key, value) => if table.contains key then none else some (table.insert key value))
    .empty

end Federation.Options.Toml
