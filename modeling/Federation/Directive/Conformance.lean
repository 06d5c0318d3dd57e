import Federation.Catalogue

/-!
Conformance of an application to the definition of its directive: which arguments are given, and
whether each value has the shape of the declared type.
-/

namespace Federation

open Schema

/-- Whether a value other than null has the shape of a named type. Types that are no built-in scalars
take any value. -/
def Schema.Value.fits (name : String) (v : Value) : Bool :=
  if name ∈ ["String", Vocabulary.fieldSetScalar, Vocabulary.scopeScalar] then
    v matches .string _
  else if name = "ID" then v matches .string _ | .int _
  else if name = "Boolean" then v matches .boolean _
  else if name = "Int" then v matches .int _
  else if name = "Float" then v matches .int _ | .float _
  else true

/-- Whether a constant has the shape of a type. A value that is no list stands for a list of itself. -/
def Schema.TypeRef.admits : TypeRef → Value → Bool
  | .named name nonNull, v => if v.isNull then !nonNull else v.fits name
  | .list item nonNull, v =>
    if v.isNull then !nonNull
    else
      match v with
      | .list items => items.all item.admits
      | v => item.admits v

inductive DirectiveFault
  | undefined (directive : String)
  | misplaced (hostPath : String) (location : Location) (directive : String) (allowed : List Location)
  | repeatedArgument (argument : String)
  | unknownArgument (argument directive : String)
  | mistypedArgument (argument : String) (declared : TypeRef) (given : String)
  | missingArguments (arguments : List String)
  | notRepeatable (directive : String)
  | selfOverride (fieldPath subgraph : String)

def DirectiveFault.message : DirectiveFault → String
  | undefined directive => s!"The directive \"@{directive}\" is not defined."
  | misplaced hostPath location directive allowed =>
    s!"\"{hostPath}\" is type \"{location.text}\", but the directive \"@{directive}\" is only valid on the following location(s): {Location.listText allowed}."
  | repeatedArgument argument => s!"The argument \"{argument}\" is defined more than once."
  | unknownArgument argument directive =>
    s!"The argument \"{argument}\" is not defined on the directive \"@{directive}\"."
  | mistypedArgument argument declared given =>
    s!"The argument \"{argument}\" must be type \"{declared.text}\", but the provided value is type \"{given}\"."
  | missingArguments arguments =>
    let names := ", ".intercalate (arguments.map fun a => s!"\"{a}\"")
    s!"The following required argument(s) are not defined: {names}."
  | notRepeatable directive =>
    s!"The directive \"@{directive}\" is not repeatable, but it is declared more than once."
  | selfOverride fieldPath subgraph =>
    s!"Cannot override field \"{fieldPath}\" because the source and target subgraph names are both \"{subgraph}\"."

namespace DirectiveConformance

/-- What is wrong with one argument, given the names of those before it. -/
def argumentFault? (definition : DirectiveDefinition) (earlier : List String) (name : String)
    (value : Value) : Option DirectiveFault :=
  if name ∈ earlier then some (.repeatedArgument name)
  else
    match definition.argument? name with
    | none => some (.unknownArgument name definition.name)
    | some argument =>
      if argument.type.admits value then none
      else some (.mistypedArgument name argument.type value.sort)

/-- The faults of arguments in order, given the names of those before them. -/
def givenFaults (definition : DirectiveDefinition) (earlier : List String) :
    List (String × Value) → List DirectiveFault
  | [] => []
  | (name, value) :: rest =>
    (argumentFault? definition earlier name value).toList ++
      givenFaults definition (earlier ++ [name]) rest

def missing (definition : DirectiveDefinition) (given : List String) : List String :=
  ((definition.arguments.filter ArgumentDefinition.isRequired).map ArgumentDefinition.name).filter
    (· ∉ given)

def argumentFaults (d : Directive) (definition : DirectiveDefinition) : List DirectiveFault :=
  let absent := missing definition (d.arguments.map Prod.fst)
  givenFaults definition [] d.arguments ++
    if absent.isEmpty then [] else [.missingArguments absent]

end DirectiveConformance

end Federation
