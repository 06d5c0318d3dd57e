import Federation.Decimal.Binary64
import Federation.Text.Block
import Federation.Text.Quoted

/-!
Tokens, and the reading of a text as a list of them. White space, commas and comments separate tokens
and are dropped.
-/

namespace Federation.Grammar

inductive Token
  | mark (c : Char)
  | spread
  | name (s : String)
  /-- Of any size. The program holds no integer beyond 64 bits, so larger ones are beyond it. -/
  | int (n : Int)
  | float (x : Decimal.Binary64)
  | string (s : String)
  deriving DecidableEq

namespace Token

/-- Characters that are tokens by themselves. -/
def isMark (c : Char) : Bool := "!$&():=@[]\x7b|\x7d".toList.contains c

def isIgnored (c : Char) : Bool :=
  c = ' ' || c = '\t' || c = '\r' || c = '\n' || c = '\x0c' || c = ',' || c = '\ufeff'

def isLineEnd (c : Char) : Bool := c = '\r' || c = '\n'

def isNameStart (c : Char) : Bool := c.isAlpha || c = '_'

def isNamePart (c : Char) : Bool := c.isAlphanum || c = '_'

/-- A run of decimal digits that is not empty. -/
def digits? (cs : List Char) : Option (List Char × List Char) :=
  if (cs.takeWhile Char.isDigit).isEmpty then none
  else some (cs.takeWhile Char.isDigit, cs.dropWhile Char.isDigit)

def natOfDigits (ds : List Char) : Nat := ds.foldl (fun n d => 10 * n + (d.toNat - 48)) 0

/-- A point with digits after it, if a point is there. -/
def fraction? : List Char → Option (Option (List Char) × List Char)
  | '.' :: rest => (digits? rest).map fun (ds, rest) => (some ds, rest)
  | cs => some (none, cs)

def exponentSign : List Char → Bool × List Char
  | '-' :: rest => (true, rest)
  | '+' :: rest => (false, rest)
  | cs => (false, cs)

/-- An exponent with its letter, if one is there. -/
def exponent? : List Char → Option (Option Int × List Char)
  | c :: rest =>
    if c = 'e' ∨ c = 'E' then
      let sign := exponentSign rest
      (digits? sign.2).map fun (ds, rest) =>
        (some (if sign.1 then -Int.ofNat (natOfDigits ds) else natOfDigits ds), rest)
    else some (none, c :: rest)
  | [] => some (none, [])

/-- The whole part of a number. It starts with a zero only if it is zero. -/
def whole? (cs : List Char) : Option (List Char × List Char) :=
  match digits? cs with
  | some ('0' :: _ :: _, _) => none
  | read => read

/-- The number that the parts of a literal make. Without fraction and exponent it is an integer. -/
def number (negative : Bool) (whole : List Char) (fraction : Option (List Char))
    (exponent : Option Int) : Token :=
  match fraction, exponent with
  | none, none =>
    let n := Int.ofNat (natOfDigits whole)
    int (if negative then -n else n)
  | _, _ =>
    let places := fraction.getD []
    float (.ofDecimal negative (natOfDigits (whole ++ places)) (exponent.getD 0 - places.length))

/-- Whether a text starts with what may not follow a number at once: a name or a point. -/
def clings (cs : List Char) : Bool := cs.head?.any fun c => isNameStart c || c = '.'

def unsigned? (negative : Bool) (cs : List Char) : Option (Token × List Char) := do
  let (whole, rest) ← whole? cs
  let (fraction, rest) ← fraction? rest
  let (exponent, rest) ← exponent? rest
  if clings rest then none else some (number negative whole fraction exponent, rest)

/-- The token at the start of a text that starts with none of the characters that are dropped. -/
def next? : List Char → Option (Token × List Char)
  | '.' :: '.' :: '.' :: rest => some (spread, rest)
  | '"' :: '"' :: '"' :: rest =>
    (Text.Block.decode rest).map fun (s, rest) => (string (String.ofList s), rest)
  | '"' :: rest => (Text.Quoted.decode rest).map fun (s, rest) => (string (String.ofList s), rest)
  | '-' :: rest => unsigned? true rest
  | c :: rest =>
    if isMark c then some (mark c, rest)
    else if isNameStart c then
      some (name (String.ofList (c :: rest.takeWhile isNamePart)), rest.dropWhile isNamePart)
    else unsigned? false (c :: rest)
  | [] => none

theorem length_of_digits? {cs ds rest : List Char} (h : digits? cs = some (ds, rest)) :
    rest.length < cs.length := by
  unfold digits? at h
  split at h
  · simp at h
  · next some_digit =>
    simp only [Option.some.injEq, Prod.mk.injEq] at h
    have split_length := congrArg List.length (List.takeWhile_append_dropWhile (p := Char.isDigit) (l := cs))
    simp only [List.length_append] at split_length
    have : (cs.takeWhile Char.isDigit).length ≠ 0 := by
      simpa [List.isEmpty_iff] using some_digit
    rw [← h.2]
    omega

theorem length_of_fraction? {cs rest : List Char} {ds : Option (List Char)}
    (h : fraction? cs = some (ds, rest)) : rest.length ≤ cs.length := by
  unfold fraction? at h
  split at h
  · obtain ⟨⟨d, r⟩, read, same⟩ := Option.map_eq_some_iff.1 h
    have := length_of_digits? read
    simp_all
    omega
  · simp_all

theorem length_exponentSign_le (cs : List Char) : (exponentSign cs).2.length ≤ cs.length := by
  unfold exponentSign
  split <;> simp

theorem length_of_exponent? {cs rest : List Char} {e : Option Int}
    (h : exponent? cs = some (e, rest)) : rest.length ≤ cs.length := by
  unfold exponent? at h
  split at h
  · next c r =>
    split at h
    · obtain ⟨⟨d, r'⟩, read, same⟩ := Option.map_eq_some_iff.1 h
      have := length_of_digits? read
      have := length_exponentSign_le r
      simp_all
      omega
    · simp_all
  · simp_all

theorem length_of_whole? {cs ds rest : List Char} (h : whole? cs = some (ds, rest)) :
    rest.length < cs.length := by
  unfold whole? at h
  split at h
  · simp at h
  · exact length_of_digits? h

theorem length_of_unsigned? {negative : Bool} {cs rest : List Char} {t : Token}
    (h : unsigned? negative cs = some (t, rest)) : rest.length < cs.length := by
  unfold unsigned? at h
  simp only [Option.bind_eq_bind, Option.bind_eq_some_iff] at h
  obtain ⟨⟨whole, r₁⟩, read₁, ⟨fraction, r₂⟩, read₂, ⟨exponent, r₃⟩, read₃, built⟩ := h
  have := length_of_whole? read₁
  have := length_of_fraction? read₂
  have := length_of_exponent? read₃
  dsimp only at *
  split at built
  · simp at built
  · simp only [Option.some.injEq, Prod.mk.injEq] at built
    obtain ⟨-, rfl⟩ := built
    omega

theorem length_of_next? {cs rest : List Char} {t : Token} (h : next? cs = some (t, rest)) :
    rest.length < cs.length := by
  unfold next? at h
  split at h
  · simp only [Option.some.injEq, Prod.mk.injEq] at h
    obtain ⟨-, rfl⟩ := h
    simp only [List.length_cons]
    omega
  · obtain ⟨⟨s, r⟩, read, same⟩ := Option.map_eq_some_iff.1 h
    have shorter := Text.Block.length_of_decode read
    obtain ⟨-, rfl⟩ := Prod.mk.inj same
    simp only [List.length_cons]
    omega
  · obtain ⟨⟨s, r⟩, read, same⟩ := Option.map_eq_some_iff.1 h
    have shorter := Text.Quoted.length_of_decode read
    obtain ⟨-, rfl⟩ := Prod.mk.inj same
    simp only [List.length_cons]
    omega
  · have shorter := length_of_unsigned? h
    simp only [List.length_cons]
    omega
  · next c r _ _ _ _ =>
    split at h
    · simp only [Option.some.injEq, Prod.mk.injEq] at h
      obtain ⟨-, rfl⟩ := h
      simp
    · split at h
      · -- A name takes its first character and every further one that may stand in a name.
        simp only [Option.some.injEq, Prod.mk.injEq] at h
        obtain ⟨-, rfl⟩ := h
        have shorter := (List.dropWhile_sublist (l := r) isNamePart).length_le
        simp only [List.length_cons]
        omega
      · exact length_of_unsigned? h
  · simp at h

/-- All tokens of a text, or nothing where some part of it is no token. -/
def scan : List Char → Option (List Token)
  | [] => some []
  | c :: rest =>
    if isIgnored c then scan rest
    else if c = '#' then scan (rest.dropWhile (!isLineEnd ·))
    else
      match _ : next? (c :: rest) with
      | none => none
      | some (t, rest') => (scan rest').map (t :: ·)
termination_by cs => cs.length
decreasing_by
  · simp
  · have := (List.dropWhile_sublist (l := rest) (!isLineEnd ·)).length_le
    simp only [List.length_cons]
    omega
  · exact length_of_next? (by assumption)

end Token

end Federation.Grammar
