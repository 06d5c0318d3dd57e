import Federation.Schema.Location
import Federation.Schema.TypeRef
import Federation.Schema.Value

/-! Directives: applications with constant arguments, and definitions. -/

namespace Federation.Schema

/-- An application. Arguments are listed as written, with repetitions. -/
structure Directive where
  name : String
  arguments : List (String × Value)

namespace Directive

def argument? (d : Directive) (name : String) : Option Value :=
  (d.arguments.find? (·.1 = name)).map Prod.snd

def string? (d : Directive) (name : String) : Option String := (d.argument? name).bind Value.string?

def text (d : Directive) : String :=
  if d.arguments.isEmpty then "@" ++ d.name
  else
    let written := d.arguments.map fun (name, value) => name ++ ": " ++ value.text
    "@" ++ d.name ++ "(" ++ ", ".intercalate written ++ ")"

end Directive

structure ArgumentDefinition where
  name : String
  type : TypeRef
  default? : Option Value

/-- An argument without null and without default must always be given. -/
def ArgumentDefinition.isRequired (a : ArgumentDefinition) : Bool :=
  a.type.isNonNull && a.default?.isNone

structure DirectiveDefinition where
  name : String
  description : Option String
  arguments : List ArgumentDefinition
  isRepeatable : Bool
  /-- Where the directive may be applied, each place once and in the order of `Location.all`. -/
  locations : List Location

namespace DirectiveDefinition

def argument? (d : DirectiveDefinition) (name : String) : Option ArgumentDefinition :=
  d.arguments.find? (·.name = name)

/-- The locations inside operations. -/
def executableLocations (d : DirectiveDefinition) : List Location :=
  d.locations.filter (· ∈ Location.executable)

end DirectiveDefinition

end Federation.Schema
