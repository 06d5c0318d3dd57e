import Federation.Grammar.Constant
import Federation.Schema.Definition

/-! Readers for the definitions and extensions of a subgraph. -/

namespace Federation.Grammar

open Schema

namespace Reader

def inputValueDefinition : Reader InputValueDefinition := do
  let description ← string?
  let name ← name
  mark ':'
  let type ← typeRef
  let default? ← default?
  return { name, description, type, default?, directives := ← constantDirectives }

/-- Argument definitions between parentheses, which are not empty where they are written. -/
def argumentDefinitions : Reader (List InputValueDefinition) :=
  optionalSomeBetween '(' ')' inputValueDefinition

def fieldDefinition : Reader FieldDefinition := do
  let description ← string?
  let name ← name
  let arguments ← argumentDefinitions
  mark ':'
  let type ← typeRef
  return { name, description, arguments, type, directives := ← constantDirectives }

/-- Every name but those of the constants. -/
def enumValueName : Reader String := do
  let s ← name
  guard (s ∉ ["true", "false", "null"])
  return s

def enumValueDefinition : Reader EnumValueDefinition := do
  let description ← string?
  let name ← enumValueName
  return { name, description, directives := ← constantDirectives }

/-- The interfaces of a type, if it declares that it implements any. -/
def implementedInterfaces : Reader (List String) := do
  if ← acceptKeyword "implements" then separated '&' name else return []

/-- A type after its keyword and name. -/
def typeAfterName (keyword : String) (name : String) (description : Option String) :
    Reader TypeDefinition := do
  match keyword with
  | "scalar" =>
    return { name, description, directives := ← constantDirectives, body := .scalar }
  | "type" | "interface" =>
    let interfaces ← implementedInterfaces
    let directives ← constantDirectives
    let fields ← optionalSomeBetween '\x7b' '\x7d' fieldDefinition
    let body := if keyword = "type" then .object interfaces fields else .interface interfaces fields
    return { name, description, directives, body }
  | "union" =>
    let directives ← constantDirectives
    let members ← if ← acceptMark '=' then separated '|' Reader.name else pure []
    return { name, description, directives, body := .union members }
  | "enum" =>
    let directives ← constantDirectives
    let values ← optionalSomeBetween '\x7b' '\x7d' enumValueDefinition
    return { name, description, directives, body := .enum values }
  | "input" =>
    let directives ← constantDirectives
    let fields ← optionalSomeBetween '\x7b' '\x7d' inputValueDefinition
    return { name, description, directives, body := .inputObject fields }
  | _ => failure

def rootOperation : Reader (Operation × String) := do
  let some operation := Operation.ofText? (← name) | failure
  mark ':'
  return (operation, ← name)

def location : Reader Location := do
  let some location := Location.ofText? (← name) | failure
  return location

/-- A directive definition after its keyword. What describes or annotates an argument is read and
left out. -/
def directiveDefinition (description : Option String) : Reader DirectiveDefinition := do
  mark '@'
  let name ← name
  let arguments ← argumentDefinitions
  let isRepeatable ← acceptKeyword "repeatable"
  keyword "on"
  let locations ← separated '|' location
  return {
    name, description, isRepeatable
    arguments := arguments.map fun a => ⟨a.name, a.type, a.default?⟩
    locations := Location.ordered locations }

def extension (description : Option String) : Reader Statement := do
  let kind ← name
  if kind = "schema" then
    let directives ← constantDirectives
    let operationTypes ← optionalBetween '\x7b' '\x7d' rootOperation
    return .extendSchema { directives, operationTypes }
  else return .extendType (← typeAfterName kind (← name) description)

/-- A definition or an extension, with the description before it. A schema keeps no description. -/
def statement : Reader Statement := do
  let description ← string?
  match ← name with
  | "extend" => extension description
  | "schema" =>
    let directives ← constantDirectives
    let operationTypes ← between '\x7b' '\x7d' rootOperation
    return .define (.schema { directives, operationTypes })
  | "directive" => return .define (.directive (← directiveDefinition description))
  | kind => return .define (.type (← typeAfterName kind (← name) description))

end Reader

def readStatements? (text : String) : Option (List Statement) :=
  Reader.read? (Reader.someToEnd Reader.statement) text

end Federation.Grammar
