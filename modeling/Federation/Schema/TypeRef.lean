/-! References to types, their written form, and when one may stand in for another. -/

namespace Federation.Schema

/-- A named type or a list, each with or without the promise not to be null. -/
inductive TypeRef
  | named (name : String) (nonNull : Bool)
  | list (item : TypeRef) (nonNull : Bool)
  deriving DecidableEq

namespace TypeRef

/-- The name under all lists. -/
def namedType : TypeRef → String
  | named name _ => name
  | list item _ => item.namedType

def isNonNull : TypeRef → Bool
  | named _ nonNull => nonNull
  | list _ nonNull => nonNull

/-- The same type without null. -/
def required : TypeRef → TypeRef
  | named name _ => named name true
  | list item _ => list item true

def text : TypeRef → String
  | named name nonNull => name ++ if nonNull then "!" else ""
  | list item nonNull => "[" ++ item.text ++ "]" ++ if nonNull then "!" else ""

/-- Whether a field of type `given` may implement a field of type `declared`: null may only be ruled
out, lists must match, and a named type may be replaced by one of its concrete types. -/
def narrows (isConcrete : String → String → Bool) : (declared given : TypeRef) → Bool
  | named declared declaredNonNull, named given givenNonNull =>
    (!declaredNonNull || givenNonNull) && (declared = given || isConcrete declared given)
  | list declared declaredNonNull, list given givenNonNull =>
    (!declaredNonNull || givenNonNull) && narrows isConcrete declared given
  | _, _ => false

end TypeRef

end Federation.Schema
