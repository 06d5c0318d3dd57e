import Federation.Event.Binding
import Federation.FieldSet.Selected
import Federation.Registry.Roots

/-!
The shape of an event-driven subgraph. Its root fields are all bound to a broker, its other objects are
entities that consist of the fields of their keys, and those fields belong to other subgraphs.
-/

namespace Federation

open Schema

/-- The raw field sets of the keys of a type, each with whether it can be resolved. -/
abbrev KeySets := Table String Bool

namespace Event

/-- The event directives that may stand on the root fields of an operation. -/
def permitted : Schema.Operation → List String
  | .query => [Vocabulary.natsRequest]
  | .mutation => [Vocabulary.kafkaPublish, Vocabulary.natsPublish, Vocabulary.natsRequest]
  | .subscription => [Vocabulary.kafkaSubscribe, Vocabulary.natsSubscribe]

inductive RootFieldFault
  | unbound (path : String) (operation : Schema.Operation)
  | notPermitted (path : String) (directives : List String) (operation : Schema.Operation)

private def directiveList (names : List String) : String :=
  ", ".intercalate (names.map fun name => s!"\"@{name}\"")

def RootFieldFault.text : RootFieldFault → String
  | unbound path operation =>
    s!"\"{path}\" does not define an event directive; root fields of {operation.text} must define one of: {directiveList (permitted operation)}."
  | notPermitted path directives operation =>
    s!"\"{path}\" defines the event directive(s) {directiveList directives}, which are not valid on root fields of {operation.text}."

/-- A field whose type is not what it has to be. -/
structure ResponseFault where
  path : String
  type : String

/-- A kind of fault of an event-driven subgraph, with every place where it occurs. -/
inductive ShapeFault
  | publishResult
  | missingStreamInput
  | streamInput
  | rootFields (faults : List RootFieldFault)
  | mutationResponses (faults : List ResponseFault)
  | rootResponses (faults : List ResponseFault)
  | unresolvableKeys (keys : List (String × String))
  | ownKeyFields (paths : List String)
  | fieldsOutsideKeys (paths : List String)
  | typesWithoutKey (names : List String)

private def itemized (heading : String) (items : List String) : String :=
  heading ++ String.join (items.map fun item => "\n   " ++ item)

def ShapeFault.message : ShapeFault → String
  | publishResult =>
    s!"The object \"{Vocabulary.publishResult}\" must define exactly one field, \"success: Boolean!\", without arguments."
  | missingStreamInput =>
    s!"The input object \"{Vocabulary.streamInput}\" must be defined when \"@{Vocabulary.natsSubscribe}\" is used."
  | streamInput =>
    s!"The input object \"{Vocabulary.streamInput}\" must define exactly the input values \"consumerName: String!\" and \"streamName: String!\"."
  | rootFields faults =>
    itemized "The following root fields define invalid event directives:"
      (faults.map RootFieldFault.text)
  | mutationResponses faults =>
    itemized "The following mutation fields return invalid types:" <| faults.map fun f =>
      s!"\"{f.path}\" returns \"{f.type}\", but mutation fields must return \"{Vocabulary.publishResult}!\"."
  | rootResponses faults =>
    itemized "The following root fields return invalid types:" <| faults.map fun f =>
      s!"\"{f.path}\" returns \"{f.type}\", but it must return a non-null entity (or a non-null list of entities)."
  | unresolvableKeys keys =>
    itemized
      "The following key field sets are declared unresolvable, but entities of an event-driven graph must be resolvable:"
      (keys.map fun (fieldSet, name) => s!"\"{fieldSet}\" on the entity \"{name}\"")
  | ownKeyFields paths =>
    itemized "The following key fields must be declared \"@external\":" paths
  | fieldsOutsideKeys paths =>
    itemized
      "The following fields are not part of a key, but entities of an event-driven graph may only define key fields:"
      paths
  | typesWithoutKey names =>
    itemized
      "The following objects do not define a key, but objects of an event-driven graph must be entities:"
      names

/-- A subgraph as far as its event-driven shape depends on it. -/
structure Subject where
  roots : RootTypes
  types : Registry
  concrete : ConcreteTypes
  keySets : Table String KeySets
  keyFieldNames : Table String NameSet
  applied : NameSet

namespace Subject

variable (s : Subject)

/-- The fields of root objects, each with its operation and its type's name. -/
def rootFields : List (Schema.Operation × String × String × Field) :=
  s.types.toList.flatMap fun (typeName, entry) =>
    if typeName ∈ [Vocabulary.publishResult, Vocabulary.streamInput] then []
    else
      match entry.shape, s.roots.operation? typeName with
      | .object c, some operation =>
        c.fields.toList.map fun (name, field) => (operation, typeName, name, field)
      | _, _ => []

/-- The objects that must be entities. -/
def entityObjects : List (String × Composite) :=
  s.types.toList.filterMap fun (typeName, entry) =>
    if typeName ∈ [Vocabulary.publishResult, Vocabulary.streamInput] then none
    else
      match entry.shape with
      | .object c => if s.roots.isRootName typeName then none else some (typeName, c)
      | _ => none

/-- The objects that must be entities and have a valid key, with the fields of their keys. -/
def keyedObjects : List (String × Composite × NameSet) :=
  s.entityObjects.filterMap fun (typeName, c) =>
    (s.keyFieldNames.get? typeName).map fun names => (typeName, c, names)

def rootFieldFault? : Schema.Operation × String × String × Field → Option RootFieldFault
  | (operation, typeName, name, field) =>
    let bound := Vocabulary.eventDirectives.filter field.directives.contains
    let refused := bound.filter (· ∉ permitted operation)
    if bound.isEmpty then some (.unbound (coordinates typeName name) operation)
    else if refused.isEmpty then none
    else some (.notPermitted (coordinates typeName name) refused operation)

def mutationResponseFault? : Schema.Operation × String × String × Field → Option ResponseFault
  | (operation, typeName, name, field) =>
    if operation = .mutation ∧ field.type ≠ .named Vocabulary.publishResult true then
      some ⟨coordinates typeName name, field.type.text⟩
    else none

/-- Whether a type is an entity, or an abstract type with an entity among its concrete types. -/
def leadsToEntity (typeName : String) : Bool :=
  match s.concrete.get? typeName with
  | some names => names.toList.any s.types.isEntity
  | none => s.types.isEntity typeName

def rootResponseFault? : Schema.Operation × String × String × Field → Option ResponseFault
  | (operation, typeName, name, field) =>
    if operation ≠ .mutation ∧ !(field.type.isNonNull && s.leadsToEntity field.type.namedType) then
      some ⟨coordinates typeName name, field.type.text⟩
    else none

/-- Keys of entities that cannot be resolved, each with the type that declares it. -/
def unresolvableKeys : List (String × String) :=
  s.keyedObjects.flatMap fun (typeName, _, _) =>
    ((s.keySets.getD typeName .empty).toList.filter fun (_, resolvable) => !resolvable).map
      fun (fieldSet, _) => (fieldSet, typeName)

/-- Fields of keys that the subgraph itself is to resolve. -/
def ownKeyFields : List String :=
  s.keyedObjects.flatMap fun (typeName, c, keyFields) =>
    (c.fields.toList.filter fun (name, field) => keyFields.contains name && !field.isExternal).map
      fun (name, _) => coordinates typeName name

def fieldsOutsideKeys : List String :=
  s.keyedObjects.flatMap fun (typeName, c, keyFields) =>
    (c.fields.keys.filter fun name => !keyFields.contains name).map (coordinates typeName)

def typesWithoutKey : List String :=
  (s.entityObjects.map Prod.fst).filter fun typeName => !s.keyFieldNames.contains typeName

/-- The type of the results of publishing, where it is defined at all, has one field that says whether
it went well. -/
def isPublishResultValid : Bool :=
  match s.types.get? Vocabulary.publishResult with
  | none => true
  | some entry =>
    match entry.shape with
    | .object c =>
      c.fields.size = 1 &&
        (c.fields.get? Vocabulary.success).any fun field =>
          field.arguments.isEmpty && field.type = .named "Boolean" true
    | _ => false

def isStreamInput (entry : TypeEntry) : Bool :=
  match entry.shape with
  | .inputObject fields =>
    fields.size = 2 && StreamConfiguration.fieldNames.all fun name =>
      (fields.get? name).any fun field => field.type = .named "String" true
  | _ => false

def streamInputFaults : List ShapeFault :=
  if s.applied.contains Vocabulary.natsSubscribe then
    match s.types.get? Vocabulary.streamInput with
    | none => [.missingStreamInput]
    | some entry => if isStreamInput entry then [] else [.streamInput]
  else []

private def listed {α : Type} (fault : List α → ShapeFault) (items : List α) : List ShapeFault :=
  if items.isEmpty then [] else [fault items]

def faults : List ShapeFault :=
  (if s.isPublishResultValid then [] else [.publishResult]) ++
    s.streamInputFaults ++
    listed .rootFields (s.rootFields.filterMap rootFieldFault?) ++
    listed .mutationResponses (s.rootFields.filterMap mutationResponseFault?) ++
    listed .rootResponses (s.rootFields.filterMap s.rootResponseFault?) ++
    listed .unresolvableKeys s.unresolvableKeys ++
    listed .ownKeyFields s.ownKeyFields ++
    listed .fieldsOutsideKeys s.fieldsOutsideKeys ++
    listed .typesWithoutKey s.typesWithoutKey

end Subject

end Event

end Federation
