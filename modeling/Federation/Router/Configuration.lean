import Federation.Event.Binding
import Federation.FieldSet.Selected

/-! What a router has to know about the types of one subgraph. -/

namespace Federation.Router

structure Key where
  selection : String
  /-- Whether the subgraph resolves entities by this key. -/
  isResolvable : Bool
  deriving DecidableEq

/-- The canonical text of the field set that a field provides or requires. -/
structure FieldSelection where
  field : String
  selection : String
  deriving DecidableEq

/-- What a subgraph resolves of an object or interface. -/
structure Configuration where
  /-- The canonical name of the type. -/
  typeName : String
  /-- Fields that the subgraph resolves itself. -/
  fieldNames : NameSet
  /-- Fields that it leaves to others. -/
  externalFieldNames : NameSet
  /-- Whether queries may start at the type: at a root type or at an entity. -/
  isRootNode : Bool
  keys : List Key
  provides : List FieldSelection
  requires : List FieldSelection
  events : List Event.Binding
  /-- The concrete types, where the type is an entity interface or stands in for one. -/
  concreteTypes? : Option NameSet
  isInterfaceObject : Bool
  deriving DecidableEq

/-- The field sets of an entity's keys, and the subgraphs that declare some of them. -/
structure Entity where
  keyFieldSets : NameSet
  subgraphs : NameSet
  deriving DecidableEq

/-- What either of two subgraphs says of an entity. -/
def Entity.union (a b : Entity) : Entity :=
  ⟨a.keyFieldSets.union b.keyFieldSets, a.subgraphs.union b.subgraphs⟩

/-- An interface with a key, or an object that stands in for one. -/
structure EntityInterface where
  concreteTypes : NameSet
  fields : List (String × String)
  isInterfaceObject : Bool
  isResolvable : Bool
  deriving DecidableEq

namespace EntityInterface

/-- The names of the fields, where they are an interface's. -/
def interfaceFieldNames (e : EntityInterface) : List String :=
  if e.isInterfaceObject then [] else e.fields.map Prod.fst

/-- The names of the fields, where they are those of an object that stands in for an interface. -/
def objectFieldNames (e : EntityInterface) : List String :=
  if e.isInterfaceObject then e.fields.map Prod.fst else []

end EntityInterface

/-- The ways in which an external field becomes available. -/
structure ConditionalField where
  /-- Through the field set of a field that provides it. -/
  providedBy : List Condition
  /-- Through the field set of a field that requires it. -/
  requiredBy : List Condition
  deriving DecidableEq

def ConditionalField.empty : ConditionalField := ⟨[], []⟩

/-- A directive that clients may apply in operations, with the places where they may. -/
structure ClientDirective where
  description : Option String
  arguments : Table String Schema.ArgumentDefinition
  locations : List Schema.Location
  isRepeatable : Bool

end Federation.Router
