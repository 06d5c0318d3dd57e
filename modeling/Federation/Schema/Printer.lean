import Federation.Schema.Definition
import Federation.Text.Block

/-!
The written form of a document: its definitions in order, a blank line between each two. Blocks are
indented by two spaces, and empty blocks are left out.
-/

namespace Federation.Schema.Printer

def indent : String := "  "

/-- A description on lines of its own. One without line feeds and quotes is written as a quoted
string, any other as a block string. -/
def description (margin : String) : Option String → String
  | none => ""
  | some s =>
    if s.toList.contains '\n' || s.toList.contains '"' then Text.Block.encode margin s ++ "\n"
    else margin ++ Text.Quoted.encode s ++ "\n"

def directives (applied : List Directive) : String :=
  String.join (applied.map fun d => " " ++ d.text)

def withDefault : Option Value → String
  | none => ""
  | some value => " = " ++ value.text

/-- An argument list, left out where it is empty. -/
def arguments (written : List String) : String :=
  if written.isEmpty then "" else "(" ++ ", ".intercalate written ++ ")"

def argumentDefinition (a : ArgumentDefinition) : String :=
  a.name ++ ": " ++ a.type.text ++ withDefault a.default?

def inputValue (v : InputValueDefinition) : String :=
  v.name ++ ": " ++ v.type.text ++ withDefault v.default? ++ directives v.directives

def field (f : FieldDefinition) : String :=
  description indent f.description ++ indent ++ f.name ++ arguments (f.arguments.map inputValue) ++
    ": " ++ f.type.text ++ directives f.directives

def enumValue (v : EnumValueDefinition) : String :=
  description indent v.description ++ indent ++ v.name ++ directives v.directives

def inputField (v : InputValueDefinition) : String :=
  description indent v.description ++ indent ++ inputValue v

/-- Items on lines of their own between braces. -/
def block (items : List String) : String :=
  if items.isEmpty then ""
  else " \x7b\n" ++ String.join (items.map (· ++ "\n")) ++ "\x7d"

def implementing (interfaces : List String) : String :=
  if interfaces.isEmpty then "" else " implements " ++ " & ".intercalate interfaces

def keyword : TypeKind → String
  | .enum => "enum"
  | .inputObject => "input"
  | .interface => "interface"
  | .object => "type"
  | .scalar => "scalar"
  | .union => "union"

def body (applied : List Directive) : TypeBody → String
  | .enum values => directives applied ++ block (values.map enumValue)
  | .inputObject fields => directives applied ++ block (fields.map inputField)
  | .interface interfaces fields | .object interfaces fields =>
    implementing interfaces ++ directives applied ++ block (fields.map field)
  | .scalar => directives applied
  | .union members =>
    directives applied ++ if members.isEmpty then "" else " = " ++ " | ".intercalate members

def typeDefinition (t : TypeDefinition) : String :=
  description "" t.description ++ keyword t.kind ++ " " ++ t.name ++ body t.directives t.body

def directiveDefinition (d : DirectiveDefinition) : String :=
  description "" d.description ++ "directive @" ++ d.name ++
    arguments (d.arguments.map argumentDefinition) ++ (if d.isRepeatable then " repeatable" else "") ++
    " on " ++ Location.listText d.locations

def schemaDefinition (s : SchemaDefinition) : String :=
  let roots := s.operationTypes.map fun (operation, name) =>
    indent ++ operation.text ++ ": " ++ name ++ "\n"
  "schema" ++ directives s.directives ++ " \x7b\n" ++ String.join roots ++ "\x7d"

def definition : Definition → String
  | .directive d => directiveDefinition d
  | .schema s => schemaDefinition s
  | .type t => typeDefinition t

end Printer

def Document.text (document : Document) : String :=
  "\n\n".intercalate (document.map Printer.definition)

end Federation.Schema
