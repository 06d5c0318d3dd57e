import Federation.Decimal.Binary64

/-!
The fewest decimal digits that are read back as the number they were taken from, and among those the
nearest ones. For one digit, two digits and so on, the two neighbours of the number on that decimal
grid are tested by exact arithmetic. Where the upper neighbour has one digit more than the grid gives,
its last digits are zeros and are dropped.
-/

namespace Federation.Decimal

/-- A decimal number, `digits * 10 ^ scale`. -/
structure Digits where
  digits : Nat
  scale : Int
  deriving DecidableEq

/-- The same number without zeros at the end of its digits. -/
def Digits.trimmed (d : Digits) : Digits :=
  if h : d.digits ≠ 0 ∧ d.digits % 10 = 0 then Digits.trimmed ⟨d.digits / 10, d.scale + 1⟩ else d
termination_by d.digits
decreasing_by omega

def width (n : Nat) : Nat := (Nat.toDigits 10 n).length

/-- The exponent of the leading decimal digit of `significand * 2 ^ exponent`. Every number above zero
has a digit among the first 340 places. -/
def leadingPlace (significand : Nat) (exponent : Int) : Int :=
  let shifted := significand * power 10 340 * power 2 exponent / power 2 (-exponent)
  Int.ofNat (width shifted) - 341

/-- The better neighbour on the grid with the given scale, if one lies among the numbers that round to
`significand * 2 ^ exponent`. The ends of that interval belong to it where the significand is even.
Of two neighbours equally near the upper one is taken. -/
def onGrid? (significand : Nat) (exponent scale : Int) (even : Bool) (below : Nat) : Option Digits :=
  -- Everything is measured in quarters of the last binary place.
  let quarter := exponent - 2
  let unit := power 10 scale * power 2 (-quarter)
  let measure := power 2 quarter * power 10 (-scale)
  let value := 4 * significand * measure
  let low := (4 * significand - below) * measure
  let high := (4 * significand + 2) * measure
  let inside (n : Nat) : Bool :=
    if even then low ≤ n * unit && n * unit ≤ high else low < n * unit && n * unit < high
  let lower := value / unit
  let upper := lower + 1
  match inside lower, inside upper with
  | true, true =>
    if value - lower * unit < upper * unit - value then some ⟨lower, scale⟩ else some ⟨upper, scale⟩
  | true, false => some ⟨lower, scale⟩
  | false, true => some ⟨upper, scale⟩
  | false, false => none

/-- The shortest digits of a number above zero. Seventeen digits always suffice. -/
def shortest (significand : Nat) (exponent : Int) : Digits :=
  let place := leadingPlace significand exponent
  -- Below a power of two the next number is half as far away, but for the very smallest ones.
  let below := if significand = power 2 52 ∧ exponent > Binary64.minExponent then 1 else 2
  let grids := (List.range 17).map fun n : Nat => place - n
  ((grids.findSome? fun scale => onGrid? significand exponent scale (significand % 2 = 0) below).getD
    ⟨significand, exponent⟩).trimmed

end Federation.Decimal
