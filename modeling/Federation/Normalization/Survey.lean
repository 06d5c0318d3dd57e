import Federation.Authorization.Ledger
import Federation.Membership.Store
import Federation.Normalization.Intake

/-!
The survey of a subgraph: what is known after looking at some of its statements. Each step adds to it
and never looks ahead.
-/

namespace Federation

open Schema

/-- The raw field sets that fields of one type provide and require, by field. -/
structure FieldSets where
  provides : Table String String
  requires : Table String String

def FieldSets.empty : FieldSets := ⟨.empty, .empty⟩

/-- Fields taken over from other subgraphs: by subgraph, then by canonical type name. -/
abbrev Overrides := Table String (Table String NameSet)

def Overrides.add (overrides : Overrides) (target canonicalName : String) (fields : List String) :
    Overrides :=
  Table.upsert overrides target fun types => (types.getD .empty).upsert canonicalName
    fun names => (names.getD .empty).insertAll fields

structure Survey where
  errors : List Error
  repeats : Repeats
  schemaDirectives : AppliedDirectives
  types : Registry
  ledger : Authorization.Ledger
  concrete : ConcreteTypes
  /-- What was said about membership, in order. -/
  facts : List Membership.Fact
  keySets : Table String KeySets
  fieldSets : Table String FieldSets
  overrides : Overrides
  referenced : NameSet
  externals : NameSet
  /-- Fields with a subscription filter, each with whether it is a root field of subscriptions. -/
  filters : Table String Bool
  bindings : Table String (List Event.Binding)

namespace Survey

/-- Nothing is known but the errors made before. -/
def start (errors : List Error) : Survey where
  errors := errors
  repeats := .empty
  schemaDirectives := .empty
  types := .empty
  ledger := .empty
  concrete := .empty
  facts := []
  keySets := .empty
  fieldSets := .empty
  overrides := .empty
  referenced := .empty
  externals := .empty
  filters := .empty
  bindings := .empty

def report (s : Survey) (e : Error) : Survey := { s with errors := s.errors ++ [e] }

def reportAll (s : Survey) (es : List Error) : Survey := { s with errors := s.errors ++ es }

def refer (s : Survey) (typeName : String) : Survey :=
  { s with referenced := s.referenced.insert typeName }

def takeIn (setting : Setting) (location : Location) (hostPath : String)
    (accepted : AppliedDirectives) (applied : List Directive) (s : Survey) : Intake × Survey :=
  let intake := Intake.run setting location hostPath accepted s.repeats applied
  (intake, { s with repeats := intake.repeats, errors := s.errors ++ intake.errors })

def authorize (setting : Setting) (host : Authorization.Host) (intake : Intake) (s : Survey) : Survey :=
  { s with ledger := s.ledger.declare setting.maxOrScopes host intake.authorization }

/-- Notes that a type is concrete for an abstract one. -/
def addConcrete (s : Survey) (abstractName concreteName : String) : Survey :=
  { s with
    concrete := s.concrete.add abstractName concreteName
    facts := s.facts ++ [.concrete abstractName concreteName] }

def reshape (s : Survey) (typeName : String) (f : Shape → Shape) : Survey :=
  { s with types := s.types.adjust typeName fun entry => { entry with shape := f entry.shape } }

end Survey

end Federation
