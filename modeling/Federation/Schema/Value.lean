import Federation.Decimal.Shortest
import Federation.Text.Quoted

/-! Constant values, as they stand in directive arguments and as defaults, and their written form. -/

namespace Federation.Schema

/-- A constant. The fields of an object are listed as written, with repetitions. -/
inductive Value
  | null
  /-- Of any size. The program holds no integer beyond 64 bits, so larger ones are beyond it. -/
  | int (n : Int)
  | float (x : Decimal.Binary64)
  | string (s : String)
  | boolean (b : Bool)
  | enum (name : String)
  | list (items : List Value)
  | object (fields : List (String × Value))

namespace Value

def string? : Value → Option String
  | string s => some s
  | _ => none

def boolean? : Value → Option Bool
  | boolean b => some b
  | _ => none

def list? : Value → Option (List Value)
  | list items => some items
  | _ => none

def object? : Value → Option (List (String × Value))
  | object fields => some fields
  | _ => none

def isNull : Value → Bool
  | null => true
  | _ => false

/-- The content of a string that has one. -/
def nonEmptyString? (v : Value) : Option String := v.string?.filter (· ≠ "")

/-- The sort of a value, as messages name it. -/
def sort : Value → String
  | null => "null"
  | int _ => "Int"
  | float _ => "Float"
  | string _ => "String"
  | boolean _ => "Boolean"
  | enum _ => "Enum"
  | list _ => "List"
  | object _ => "Object"

end Value

/-- How a floating-point constant is laid out. -/
structure FloatLayout where
  /-- The least exponent of the leading digit that is written without an exponent. -/
  leastPositional : Int
  /-- The first exponent of the leading digit that is written with an exponent. -/
  firstScientific : Int

/-- Numbers from 0.0001 up to 10^16 are written without an exponent and always with a fraction; others
have one digit before the point and a bare exponent. -/
def floatLayout : FloatLayout := ⟨-4, 16⟩

namespace Value

/-- The digits of a positive number with the point in its place. -/
def positionalText (digits : String) (place : Int) : String :=
  let count := digits.length
  if place < 0 then "0." ++ "".pushn '0' ((-place).toNat - 1) ++ digits
  else
    let whole := place.toNat + 1
    if count ≤ whole then digits.pushn '0' (whole - count) ++ ".0"
    else
      String.ofList (digits.toList.take whole) ++ "." ++ String.ofList (digits.toList.drop whole)

/-- One digit, the others after the point, and the exponent. -/
def scientificText (digits : String) (place : Int) : String :=
  let fraction := String.ofList (digits.toList.drop 1)
  String.ofList (digits.toList.take 1) ++ (if fraction = "" then "" else "." ++ fraction) ++
    "e" ++ toString place

def floatText (x : Decimal.Binary64) : String :=
  let sign (negative : Bool) := if negative then "-" else ""
  match x with
  | .infinite negative => sign negative ++ "inf"
  | .finite negative 0 _ => sign negative ++ "0.0"
  | .finite negative significand exponent =>
    let shortest := Decimal.shortest significand exponent
    let digits := toString shortest.digits
    let place := shortest.scale + digits.length - 1
    sign negative ++
      if floatLayout.leastPositional ≤ place ∧ place < floatLayout.firstScientific then
        positionalText digits place
      else scientificText digits place

mutual

def text : Value → String
  | null => "null"
  | int n => toString n
  | float x => floatText x
  | string s => Text.Quoted.encode s
  | boolean b => if b then "true" else "false"
  | enum name => name
  | list items => "[" ++ itemsText items ++ "]"
  | object fields => "\x7b" ++ fieldsText fields ++ "\x7d"

def itemsText : List Value → String
  | [] => ""
  | [item] => item.text
  | item :: rest => item.text ++ ", " ++ itemsText rest

def fieldsText : List (String × Value) → String
  | [] => ""
  | [(name, value)] => name ++ ": " ++ value.text
  | (name, value) :: rest => name ++ ": " ++ value.text ++ ", " ++ fieldsText rest

end

end Value

end Federation.Schema
