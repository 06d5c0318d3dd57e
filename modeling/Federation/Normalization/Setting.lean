import Federation.Catalogue
import Federation.Diagnostic.Basic
import Federation.Registry.Roots

/-!
The setting of a subgraph: what has to be known of the whole before its types are looked at one by one.
-/

namespace Federation

open Schema

structure Setting where
  subgraph : String
  /-- How many alternatives a requirement may have. -/
  maxOrScopes : Nat
  applied : NameSet
  roots : RootTypes
  /-- Directives that the subgraph defines beside the catalogued ones. -/
  customDirectives : Table String DirectiveDefinition

namespace Setting

/-- Whether the second version of the rules is followed. -/
def isVersionTwo (s : Setting) : Bool := s.applied.toList.any (· ∈ Vocabulary.versionTwoMarkers)

def eventDirectives (s : Setting) : NameSet := s.applied.filter (· ∈ Vocabulary.eventDirectives)

def isEventDriven (s : Setting) : Bool := !s.eventDirectives.isEmpty

/-- The definition of a directive. Catalogued ones come first. -/
def directive? (s : Setting) (name : String) : Option DirectiveDefinition :=
  (Catalogue.directive? name).or (s.customDirectives.get? name)

/-- The operation of an object that is a root type. Interfaces are never root types. -/
def operation? (s : Setting) (kind : TypeKind) (typeName : String) : Option Operation :=
  if kind = .object then s.roots.operation? typeName else none

end Setting

namespace Overview

def appliedOnInput (v : InputValueDefinition) : List Directive := v.directives

def appliedOnField (f : FieldDefinition) : List Directive :=
  f.directives ++ f.arguments.flatMap appliedOnInput

def appliedOnType (t : TypeDefinition) : List Directive :=
  t.directives ++
    match t.body with
    | .enum values => values.flatMap EnumValueDefinition.directives
    | .inputObject fields => fields.flatMap appliedOnInput
    | .interface _ fields | .object _ fields => fields.flatMap appliedOnField
    | .scalar | .union _ => []

def appliedIn : Statement → List Directive
  | .define (.schema s) | .extendSchema s => s.directives
  | .define (.type t) | .extendType t => appliedOnType t
  | .define (.directive _) => []

/-- Declares a root type, or reports that its operation has another one. -/
def declareRoot (operation : Operation) (typeName : String) (roots : RootTypes) :
    RootTypes × List Error :=
  match roots.byOperation.get? operation with
  | some existing =>
    (roots, if existing = typeName then []
      else [.conflictingRootTypes operation existing typeName])
  | none => (roots.declare operation typeName, [])

/-- The root types of a schema in the customary order. Of two for one operation the first counts. -/
def rootsOf (s : SchemaDefinition) : List (Operation × String) :=
  Operation.all.filterMap fun operation =>
    s.operationTypes.find? (·.1 = operation)

def declareRoots (roots : RootTypes) (s : SchemaDefinition) : RootTypes × List Error :=
  (rootsOf s).foldl (fun (roots, errors) (operation, typeName) =>
    let (roots, found) := declareRoot operation typeName roots
    (roots, errors ++ found)) (roots, [])

/-- Adds a directive definition. A catalogued directive stays as it is, and so does the first of two
definitions. -/
def defineDirective (custom : Table String DirectiveDefinition) (d : DirectiveDefinition) :
    Table String DirectiveDefinition × List Error :=
  if (Catalogue.directive? d.name).isSome then (custom, [])
  else if custom.contains d.name then (custom, [.duplicateDirective d.name])
  else (custom.insert d.name d, [])

/-- Adds to a setting what one statement says, with the errors that it makes. -/
def step : Setting × List Error → Statement → Setting × List Error
  | (s, errors), .define (.schema d) | (s, errors), .extendSchema d =>
    let (roots, found) := declareRoots s.roots d
    ({ s with roots }, errors ++ found)
  | (s, errors), .define (.directive d) =>
    let (customDirectives, found) := defineDirective s.customDirectives d
    ({ s with customDirectives }, errors ++ found)
  | acc, .define (.type _) | acc, .extendType _ => acc

end Overview

def Setting.of (subgraph : String) (maxOrScopes : Nat) (statements : List Statement) :
    Setting × List Error :=
  -- The version of the rules depends on all statements, so it is settled before the walk.
  let applied := OrderedSet.ofList ((statements.flatMap Overview.appliedIn).map Directive.name)
  let start : Setting :=
    { subgraph, maxOrScopes, applied, roots := .empty, customDirectives := .empty }
  statements.foldl Overview.step (start, [])

end Federation
