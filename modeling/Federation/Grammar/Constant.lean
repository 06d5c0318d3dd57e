import Federation.Grammar.Reader
import Federation.Schema.Directive

/-! Readers for constants, references to types and applications of directives. -/

namespace Federation.Grammar

open Schema

namespace Reader

def namedConstant : String → Value
  | "null" => .null
  | "true" => .boolean true
  | "false" => .boolean false
  | s => .enum s

/-- A value nested no deeper than the bound. `meaning?` says what a variable stands for, if it may
stand here at all. -/
def boundedValue (meaning? : String → Option Value) : Nat → Reader Value
  | 0 => failure
  | bound + 1 => do
    match ← token with
    | .int n => return .int n
    | .float x => return .float x
    | .string s => return .string s
    | .name s => return namedConstant s
    | .mark '$' =>
      match meaning? (← name) with
      | some value => return value
      | none => failure
    | .mark '[' => return .list (← upTo ']' (boundedValue meaning? bound))
    | .mark '\x7b' =>
      return .object (← upTo '\x7d' do
        let field ← name
        mark ':'
        return (field, ← boundedValue meaning? bound))
    | _ => failure

def valueWith (meaning? : String → Option Value) : Reader Value := do
  boundedValue meaning? (← get).length

def constant : Reader Value := valueWith fun _ => none

def boundedTypeRef : Nat → Reader TypeRef
  | 0 => failure
  | bound + 1 => do
    match ← token with
    | .name s => return .named s (← acceptMark '!')
    | .mark '[' =>
      let item ← boundedTypeRef bound
      mark ']'
      return .list item (← acceptMark '!')
    | _ => failure

def typeRef : Reader TypeRef := do
  boundedTypeRef (← get).length

/-- Arguments between parentheses, which may be absent or empty. -/
def arguments (value : Reader Value) : Reader (List (String × Value)) :=
  optionalBetween '(' ')' do
    let argument ← name
    mark ':'
    return (argument, ← value)

def directive (value : Reader Value) : Reader Directive := do
  mark '@'
  let applied ← name
  return ⟨applied, ← arguments value⟩

def directives (value : Reader Value) : Reader (List Directive) :=
  whileNext (.mark '@') (directive value)

def constantDirectives : Reader (List Directive) := directives constant

def default? : Reader (Option Value) := do
  if ← acceptMark '=' then return some (← constant) else return none

end Reader

end Federation.Grammar
