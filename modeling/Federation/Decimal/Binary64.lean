/-!
Floating-point numbers with a significand of 53 bits, and the one nearest to a decimal number. All
arithmetic is exact.
-/

namespace Federation.Decimal

/-- A power, or one where the exponent is below zero. So the fraction `power b n / power b (-n)` is the
power in every case. -/
def power (base : Nat) (exponent : Int) : Nat := Nat.pow base exponent.toNat

/-- A signed number that is `significand * 2 ^ exponent` or too large to have a significand. -/
inductive Binary64
  | finite (negative : Bool) (significand : Nat) (exponent : Int)
  | infinite (negative : Bool)
  deriving DecidableEq

namespace Binary64

def minExponent : Int := -1074

def maxExponent : Int := 971

/-- The quotient rounded to the nearest integer, and halfway to the even one. -/
def roundDiv (num den : Nat) : Nat :=
  let q := num / den
  let twice := 2 * (num % den)
  if twice < den then q else if den < twice then q + 1 else if q % 2 = 0 then q else q + 1

/-- The number of `num / den` with the most precise significand there is. -/
def ofFraction (negative : Bool) (num den : Nat) : Binary64 :=
  if num = 0 then finite negative 0 minExponent
  else
    -- The binary logarithms fix the leading place of the quotient up to one.
    let estimate : Int := Int.ofNat num.log2 - Int.ofNat den.log2
    let reached : Bool :=
      den * power 2 estimate ≤ num * power 2 (-estimate)
    let magnitude := if reached then estimate else estimate - 1
    let exponent := max (magnitude - 52) minExponent
    let significand := roundDiv (num * power 2 (-exponent)) (den * power 2 exponent)
    -- Rounding up may carry into one more binary place.
    let (significand, exponent) :=
      if significand = power 2 53 then (power 2 52, exponent + 1) else (significand, exponent)
    if exponent > maxExponent then infinite negative else finite negative significand exponent

/-- The number nearest to `digits * 10 ^ scale`. Beyond the exponents looked at, a number is too large
or rounds to zero whatever its digits are. -/
def ofDecimal (negative : Bool) (digits : Nat) (scale : Int) : Binary64 :=
  let magnitude := Int.ofNat (Nat.toDigits 10 digits).length + scale
  if digits = 0 ∨ magnitude < -340 then finite negative 0 minExponent
  else if magnitude > 320 then infinite negative
  else ofFraction negative (digits * power 10 scale) (power 10 (-scale))

end Binary64

end Federation.Decimal
