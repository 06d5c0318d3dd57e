import Federation.Text.Blank

/-!
Quoted strings: how a text is written between double quotes, and how the characters up to the
closing quote are read back.
-/

namespace Federation.Text.Quoted

/-- The digit of a value below sixteen, in lower case. -/
def hexDigit (n : Nat) : Char := "0123456789abcdef".toList.getD n '0'

/-- Four hexadecimal digits, the most significant first. -/
def hex4 (n : Nat) : List Char :=
  [hexDigit (n / 4096 % 16), hexDigit (n / 256 % 16), hexDigit (n / 16 % 16), hexDigit (n % 16)]

/-- The written form of one character: a short escape where there is one, a numeric escape for the
other control characters, and the character itself otherwise. -/
def escape (c : Char) : List Char :=
  if c = '\r' then ['\\', 'r']
  else if c = '\n' then ['\\', 'n']
  else if c = '\t' then ['\\', 't']
  else if c = '\\' then ['\\', '\\']
  else if c = '"' then ['\\', '"']
  else if isControl c then '\\' :: 'u' :: hex4 c.toNat
  else [c]

def encode (s : String) : String := String.ofList ('"' :: s.toList.flatMap escape ++ ['"'])

/-- The value of a hexadecimal digit in either case. -/
def hexValue? (c : Char) : Option Nat :=
  if c.isDigit then some (c.toNat - 48)
  else if 'a' ≤ c ∧ c ≤ 'f' then some (c.toNat - 87)
  else if 'A' ≤ c ∧ c ≤ 'F' then some (c.toNat - 55)
  else none

/-- The character that hexadecimal digits name. Surrogates name none. -/
def unicode? (digits : List Char) : Option Char := do
  let values ← digits.mapM hexValue?
  let n := values.foldl (fun n d => 16 * n + d) 0
  if n.isValidChar then some (Char.ofNat n) else none

/-- The character that a letter after a backslash stands for. -/
def unescape? : Char → Option Char
  | '"' => some '"'
  | '\\' => some '\\'
  | '/' => some '/'
  | 'b' => some '\x08'
  | 'f' => some '\x0c'
  | 'n' => some '\n'
  | 'r' => some '\r'
  | 't' => some '\t'
  | _ => none

/-- Characters that may stand unescaped: no control character below space other than a tab. -/
def isPlain (c : Char) : Bool := c = '\t' || ' ' ≤ c

/-- Reads up to the closing quote and returns the content and what follows the quote. -/
def decode : List Char → Option (List Char × List Char)
  | [] => none
  | '"' :: rest => some ([], rest)
  -- The numeric escape comes first: its letter stands for nothing by itself.
  | '\\' :: 'u' :: a :: b :: c :: d :: rest => do
    let u ← unicode? [a, b, c, d]
    let (s, rest) ← decode rest
    return (u :: s, rest)
  | '\\' :: e :: rest => do
    let u ← unescape? e
    let (s, rest) ← decode rest
    return (u :: s, rest)
  | c :: rest =>
    if c ≠ '\\' && isPlain c then do
      let (s, rest) ← decode rest
      return (c :: s, rest)
    else none

theorem length_of_decode {cs s rest : List Char} (h : decode cs = some (s, rest)) :
    rest.length < cs.length := by
  fun_induction decode cs generalizing s rest with
  | case1 => simp at h
  | case2 r => simp_all
  | case3 a b c d r ih =>
    simp only [Option.bind_eq_bind, Option.bind_eq_some_iff] at h
    obtain ⟨u, -, ⟨t, r'⟩, read, same⟩ := h
    have := ih read
    simp_all
    omega
  | case4 e r _ ih =>
    simp only [Option.bind_eq_bind, Option.bind_eq_some_iff] at h
    obtain ⟨u, -, ⟨t, r'⟩, read, same⟩ := h
    have := ih read
    simp_all
    omega
  | case5 c r _ _ _ _ ih =>
    simp only [Option.bind_eq_bind, Option.bind_eq_some_iff] at h
    obtain ⟨⟨t, r'⟩, read, same⟩ := h
    have := ih read
    simp_all
    omega
  | case6 => simp at h

end Federation.Text.Quoted
