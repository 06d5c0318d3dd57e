/-! The places where a directive may be applied. -/

namespace Federation.Schema

inductive Location
  | query
  | mutation
  | subscription
  | field
  | fragmentDefinition
  | fragmentSpread
  | inlineFragment
  | variableDefinition
  | schema
  | scalar
  | object
  | fieldDefinition
  | argumentDefinition
  | interface
  | union
  | enum
  | enumValue
  | inputObject
  | inputFieldDefinition
  deriving DecidableEq

namespace Location

def executable : List Location :=
  [query, mutation, subscription, field, fragmentDefinition, fragmentSpread, inlineFragment,
    variableDefinition]

def typeSystem : List Location :=
  [schema, scalar, object, fieldDefinition, argumentDefinition, interface, union, enum, enumValue,
    inputObject, inputFieldDefinition]

/-- All places, in the order in which lists of them are written. -/
def all : List Location := executable ++ typeSystem

def text : Location → String
  | query => "QUERY"
  | mutation => "MUTATION"
  | subscription => "SUBSCRIPTION"
  | field => "FIELD"
  | fragmentDefinition => "FRAGMENT_DEFINITION"
  | fragmentSpread => "FRAGMENT_SPREAD"
  | inlineFragment => "INLINE_FRAGMENT"
  | variableDefinition => "VARIABLE_DEFINITION"
  | schema => "SCHEMA"
  | scalar => "SCALAR"
  | object => "OBJECT"
  | fieldDefinition => "FIELD_DEFINITION"
  | argumentDefinition => "ARGUMENT_DEFINITION"
  | interface => "INTERFACE"
  | union => "UNION"
  | enum => "ENUM"
  | enumValue => "ENUM_VALUE"
  | inputObject => "INPUT_OBJECT"
  | inputFieldDefinition => "INPUT_FIELD_DEFINITION"

def ofText? (s : String) : Option Location := all.find? (·.text = s)

/-- Each listed place once, in the order of `all`. -/
def ordered (locations : List Location) : List Location := all.filter (· ∈ locations)

/-- A list of places as a directive definition writes it. -/
def listText (locations : List Location) : String := " | ".intercalate (locations.map text)

theorem mem_all (l : Location) : l ∈ all := by cases l <;> decide

theorem mem_ordered {locations : List Location} {l : Location} :
    l ∈ ordered locations ↔ l ∈ locations := by
  simp [ordered, mem_all]

theorem ofText?_text (l : Location) : ofText? l.text = some l := by cases l <;> decide

end Location

end Federation.Schema
