import Federation.Registry.Basic

/-!
# Responses and their types

What a type promises about a response: whether there may be none, that lists match, and which concrete types a value
may have. What a response keeps can be decided.
-/

namespace Federation

open Schema

/-- What a response holds in one place, as far as types speak about it. -/
inductive Response
  | null
  | list (items : List Response)
  /-- A value of a type that is not abstract. -/
  | value (typeName : String)

namespace Response

/-- Whether a response keeps what a type promises. -/
def Conforms (concrete : ConcreteTypes) : TypeRef → Response → Prop
  | .named _ nonNull, null | .list _ nonNull, null => nonNull = false
  | .list item _, list items => ∀ r ∈ items, Conforms concrete item r
  | .named name _, value typeName => name = typeName ∨ concrete.isConcrete name typeName = true
  | .named _ _, list _ | .list _ _, value _ => False

def decidableConforms (concrete : ConcreteTypes) : (t : TypeRef) → (r : Response) → Decidable (Conforms concrete t r)
  | .named _ nonNull, null | .list _ nonNull, null => inferInstanceAs (Decidable (nonNull = false))
  | .list item _, list items =>
    have := decidableConforms concrete item
    inferInstanceAs (Decidable (∀ r ∈ items, Conforms concrete item r))
  | .named name _, value typeName =>
    inferInstanceAs (Decidable (name = typeName ∨ concrete.isConcrete name typeName = true))
  | .named _ _, list _ | .list _ _, value _ => inferInstanceAs (Decidable False)

instance (concrete : ConcreteTypes) (t : TypeRef) (r : Response) : Decidable (Conforms concrete t r) :=
  decidableConforms concrete t r

end Response

end Federation
