import Federation.Grammar.Constant
import Federation.Schema.Selection

/-!
Readers for operations and fragments. A field set is read as the selections of an operation without
name, by putting it between braces.
-/

namespace Federation.Grammar

open Schema

namespace Reader

/-- A value of an operation. Nothing hangs on what a variable stands for. -/
def operationValue : Reader Value := valueWith fun _ => some .null

def operationDirectives : Reader (List Directive) := directives operationValue

/-- A selection whose own selections are nested no deeper than the bound. -/
def boundedSelection : Nat → Reader Selection
  | 0 => failure
  | bound + 1 => do
    match ← token with
    | .spread =>
      match ← name? with
      | some "on" =>
        discard name
        discard operationDirectives
        mark '\x7b'
        discard (someUpTo '\x7d' (boundedSelection bound))
      | some _ => discard operationDirectives
      | none =>
        discard operationDirectives
        mark '\x7b'
        discard (someUpTo '\x7d' (boundedSelection bound))
      return .fragment
    | .name first =>
      let selected ← if ← acceptMark ':' then name else pure first
      let arguments ← arguments operationValue
      let directives ← operationDirectives
      let selections ← optionalSomeBetween '\x7b' '\x7d' (boundedSelection bound)
      return .field selected (!arguments.isEmpty) (!directives.isEmpty) selections
    | _ => failure

def selectionSet : Reader (List Selection) := do
  mark '\x7b'
  someUpTo '\x7d' (boundedSelection (← get).length)

/-- A variable with its type. Its default is a constant, and its directives may refer to variables. -/
def variableDefinition : Reader Unit := do
  mark '$'
  discard name
  mark ':'
  discard typeRef
  discard default?
  discard operationDirectives

/-- The selections of an operation, or nothing for a fragment. -/
def executableDefinition : Reader (Option (List Selection)) := do
  if ← isNext (.mark '\x7b') then return some (← selectionSet)
  else
    match ← name with
    | "fragment" =>
      guard ((← name) ≠ "on")
      keyword "on"
      discard name
      discard operationDirectives
      discard selectionSet
      return none
    | operation =>
      guard (operation ∈ ["query", "mutation", "subscription"])
      discard name?
      discard (optionalSomeBetween '(' ')' variableDefinition)
      discard operationDirectives
      return some (← selectionSet)

end Reader

/-- The selections of a field set. Braces inside it can close the first operation, and then only that
one counts. -/
def readFieldSet? (fieldSet : String) : Option (List Selection) := do
  let definitions ← Reader.read? (Reader.someToEnd Reader.executableDefinition)
    ("\x7b " ++ fieldSet ++ " \x7d")
  definitions.findSome? id

end Federation.Grammar
