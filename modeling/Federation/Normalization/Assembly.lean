import Federation.Authorization.Inheritance
import Federation.FieldSet.Declared
import Federation.Router.Configuration

/-!
Assembly: the document, the router's data and the diagnostics that follow from a complete survey and
from the requirements after inheritance.
-/

namespace Federation

open Schema

/-- A subgraph that was surveyed to its end. -/
structure Assembly where
  setting : Setting
  survey : Survey
  ledger : Authorization.Ledger

namespace Assembly

variable (a : Assembly)

def types : Registry := a.survey.types

/-- Whether a type is among the scalars that stand in every document. -/
def isSupportType (typeName : String) : Bool :=
  typeName = Vocabulary.fieldSetScalar ||
    (a.setting.isVersionTwo && typeName = Vocabulary.scopeScalar)

def ownTypes : List (String × TypeEntry) :=
  a.types.toList.filter fun (name, _) => !a.isSupportType name

def ownComposites : List (String × TypeEntry × Composite) :=
  a.ownTypes.filterMap fun (name, entry) => entry.composite?.map fun c => (name, entry, c)

/-! ## Keys and other field sets -/

def keys : List (String × List FieldSet.DeclaredKey) :=
  a.survey.keySets.toList.map fun (name, sets) => (name, FieldSet.keysOf a.types name sets)

/-- The fields at the top of the valid keys of each type that has one. -/
def keyFieldNames : Table String NameSet :=
  a.survey.keySets.filterMap fun name sets =>
    let valid := (FieldSet.keysOf a.types name sets).filterMap FieldSet.DeclaredKey.selections?
    if valid.isEmpty then none
    else some (OrderedSet.ofList (valid.flatMap FieldSet.topLevelNames))

def declaredSelections : List FieldSet.DeclaredSelection :=
  a.survey.fieldSets.toList.flatMap fun (name, sets) => FieldSet.selectionsOn a.types name sets

/-- Adds one way in which an external field becomes available. -/
def addCondition (use : FieldSetUse) (conditional : Table String Router.ConditionalField)
    (found : String × Condition) : Table String Router.ConditionalField :=
  conditional.upsert found.1 fun old =>
    let old := old.getD .empty
    -- Keys have no conditions, so what is not provided is required.
    if use = .provides then { old with providedBy := old.providedBy ++ [found.2] }
    else { old with requiredBy := old.requiredBy ++ [found.2] }

def conditionalFields : Table String Router.ConditionalField :=
  a.declaredSelections.foldl (fun conditional d =>
    (d.conditions a.types).foldl (addCondition d.use) conditional) .empty

/-! ## The router's data -/

def entities : Table String Router.Entity :=
  a.types.filterMap fun name entry =>
    if entry.composite?.isSome && entry.isEntity then
      some ⟨OrderedSet.ofList (a.survey.keySets.getD name .empty).keys,
        OrderedSet.ofList [a.setting.subgraph]⟩
    else none

/-- Whether a type is an interface with a key, or an object that stands in for one. -/
def isEntityInterface (entry : TypeEntry) : Bool :=
  match entry.kind with
  | .interface => entry.isEntity
  | .object => entry.directives.contains Vocabulary.interfaceObject
  | _ => false

def entityInterfaces : Table String Router.EntityInterface :=
  .ofList <| a.ownComposites.filterMap fun (name, entry, c) =>
    if isEntityInterface entry then
      some (name, {
        concreteTypes := a.survey.concrete.of name
        fields := c.fields.toList.map fun (field, f) => (field, f.type.namedType)
        isInterfaceObject := entry.kind = .object
        isResolvable := match a.survey.keySets.get? name with
          | none => true
          | some sets => sets.values.any id })
    else none

/-- The name of the root type of an operation, and whether the schema declares it. -/
def rootName (operation : Operation) : String × Bool :=
  match a.setting.roots.byOperation.get? operation with
  | some name => (name, true)
  | none => (operation.defaultTypeName, false)

/-- Whether the default root type is defined beside another one that the schema declares. -/
def isShadowed (operation : Operation) : Bool :=
  (a.rootName operation).1 ≠ operation.defaultTypeName && a.types.contains operation.defaultTypeName

def definedRoots : List String :=
  Operation.all.filterMap fun operation =>
    if !a.isShadowed operation && a.types.contains (a.rootName operation).1 then
      some operation.defaultTypeName
    else none

/-- What the router has to know of one object or interface. -/
def configurationOf (name : String) (entry : TypeEntry) (c : Composite) : Router.Configuration :=
  let canonicalName := a.setting.roots.canonicalName name
  let keys := FieldSet.keysOf a.types name (a.survey.keySets.getD name .empty)
  let sets := a.survey.fieldSets.getD name .empty
  let selections (declared : List FieldSet.DeclaredSelection) : List Router.FieldSelection :=
    declared.filterMap fun d => d.selections?.map fun s => ⟨d.field, FieldSet.canonicalText s⟩
  { typeName := canonicalName
    fieldNames := .ofList ((c.fields.toList.filter fun (_, f) => !f.isExternal).map Prod.fst)
    externalFieldNames := .ofList ((c.fields.toList.filter fun (_, f) => f.isExternal).map Prod.fst)
    isRootNode := entry.isEntity || canonicalName ∈ a.definedRoots
    keys := keys.filterMap fun k =>
      k.selections?.map fun s => ⟨FieldSet.canonicalText s, k.isResolvable⟩
    provides := selections (FieldSet.providedOn a.types name sets)
    requires := selections (FieldSet.requiredOn a.types name sets)
    events := a.survey.bindings.getD canonicalName []
    concreteTypes? :=
      if isEntityInterface entry then some (a.survey.concrete.of name) else none
    isInterfaceObject := entry.kind = .object && isEntityInterface entry }

def configuration : Table String Router.Configuration :=
  .ofList <| a.ownComposites.map fun (name, entry, c) =>
    (a.setting.roots.canonicalName name, a.configurationOf name entry c)

/-- What clients may know of a directive, or the names of the arguments that it repeats. A directive
without a place in operations is of no use to clients. -/
def clientDirective? (d : DirectiveDefinition) : Option (Except (List String) Router.ClientDirective) :=
  let repeated := OrderedSet.empty.repeated (d.arguments.map ArgumentDefinition.name)
  if d.executableLocations.isEmpty then none
  else if repeated.isEmpty then
    some <| .ok
      { description := d.description, locations := d.executableLocations
        isRepeatable := d.isRepeatable
        arguments := .ofList (d.arguments.map fun argument => (argument.name, argument)) }
  else some (.error (OrderedSet.ofList repeated).toList)

def clientDirectives : Table String Router.ClientDirective :=
  a.setting.customDirectives.filterMap fun _ d =>
    match clientDirective? d with
    | some (.ok data) => some data
    | _ => none

/-! ## Diagnostics -/

def outputArguments (f : Field) : List OutputArgument :=
  f.arguments.toList.filterMap fun (name, argument) =>
    match a.types.kind? argument.type.namedType with
    | none => none
    | some kind => if kind.isInput then none else some ⟨name, argument.type, kind⟩

def argumentErrors (typeName : String) (c : Composite) : List Error :=
  c.fields.toList.filterMap fun (name, f) =>
    let found := a.outputArguments f
    if found.isEmpty then none else some (.outputArguments (coordinates typeName name) found)

def externalFields (entry : TypeEntry) (c : Composite) : List String :=
  if entry.kind = .interface then (c.fields.toList.filter fun (_, f) => f.isExternal).map Prod.fst
  else []

def implementationErrors (typeName : String) (entry : TypeEntry) (c : Composite) : List Error :=
  let nonInterfaces := Implementation.nonInterfaces a.types typeName c
  let mismatches := Implementation.mismatches a.types a.survey.concrete typeName
    entry.directives.isInaccessible c
  (Implementation.undefinedNames a.types typeName c).map Error.undefinedType ++
    (if nonInterfaces.isEmpty then [] else [.implementedNonInterfaces typeName nonInterfaces]) ++
    (if Implementation.implementsItself a.types typeName c then [.selfImplementation typeName]
      else []) ++
    if mismatches.isEmpty then [] else [.invalidImplementation entry.kind typeName mismatches]

def compositeErrors (typeName : String) (entry : TypeEntry) (c : Composite) : List Error :=
  let external := externalFields entry c
  let isQuery := a.setting.roots.canonicalName typeName = Operation.query.defaultTypeName
  a.argumentErrors typeName c ++
    (if external.isEmpty || !a.setting.isVersionTwo then []
      else [.externalInterfaceFields typeName external]) ++
    a.implementationErrors typeName entry c ++
    if c.fields.isEmpty && !isQuery then [.noFields entry.kind typeName] else []

/-- The members of a union that are defined and no objects. -/
def nonObjectMembers (members : NameSet) : List (String × TypeKind) :=
  members.toList.filterMap fun member =>
    match a.types.kind? member with
    | none => none
    | some kind => if kind = .object then none else some (member, kind)

def typeErrors (typeName : String) (entry : TypeEntry) : List Error :=
  match entry.shape with
  | .enum values => if values.isEmpty then [.noEnumValues typeName] else []
  | .inputObject fields => if fields.isEmpty then [.noInputValues typeName] else []
  | .interface c | .object c => a.compositeErrors typeName entry c
  | .scalar => if entry.hasBase then [] else [.noBaseScalar typeName]
  | .union members =>
    let nonObjects := a.nonObjectMembers members
    (if members.isEmpty then [.noMembers typeName] else []) ++
      if nonObjects.isEmpty then [] else [.nonObjectMembers typeName nonObjects]

def typeWarnings (typeName : String) (entry : TypeEntry) : List Warning :=
  match entry.composite? with
  | none => []
  | some c =>
    let external := externalFields entry c
    if external.isEmpty || a.setting.isVersionTwo then []
    else [.externalInterfaceFields a.setting.subgraph typeName external]

def rootErrors (operation : Operation) : List Error :=
  let (name, _) := a.rootName operation
  if a.isShadowed operation then [.shadowedRootType operation name]
  else
    match a.types.kind? name with
    | some kind => if kind = .object then [] else [.nonObjectRoot operation name kind]
    | none => []

/-- Whether a name is neither defined nor known to every subgraph. -/
def isUnknown (typeName : String) : Bool :=
  typeName ∉ Vocabulary.impliedTypes && !a.types.contains typeName

/-- What the root type of an operation leaves undefined: itself, where the schema declares it, or the
types of its fields. -/
def undefinedAtRoot (operation : Operation) : List String :=
  let (name, isDeclared) := a.rootName operation
  if a.isShadowed operation then []
  else
    match (a.types.get? name).map TypeEntry.shape with
    | none => if isDeclared then [name] else []
    | some (.object c) => (c.fields.values.map fun f => f.type.namedType).filter a.isUnknown
    | some _ => []

def undefinedNames : List String :=
  (OrderedSet.ofList (Operation.all.flatMap a.undefinedAtRoot ++
    a.survey.referenced.toList.filter a.isUnknown)).toList

/-- Interfaces that are referred to and have no implementation. -/
def unimplementedInterfaces : List String :=
  a.survey.referenced.toList.filter fun name =>
    a.types.kind? name = some .interface && (a.survey.concrete.of name).isEmpty

/-- Coordinates of external fields that something refers to: an interface, a key, or what a field
provides or requires. -/
def usedCoordinates : List String :=
  (a.ownComposites.flatMap fun (name, _, c) =>
      (Implementation.requiredFields a.types name c).map (coordinates name)) ++
    (a.keys.flatMap fun (_, keys) => keys.flatMap (·.coordinates a.types)) ++
    a.declaredSelections.flatMap (·.coordinates a.types)

def unusedExternals : List String :=
  let used := a.usedCoordinates
  a.survey.externals.toList.filter (· ∉ used)

def fieldSetErrors : List Error :=
  (a.keys.flatMap fun (name, keys) => FieldSet.keyErrors name keys) ++
    a.survey.fieldSets.toList.flatMap fun (name, sets) =>
      FieldSet.selectionErrors Vocabulary.provides name (FieldSet.providedOn a.types name sets) ++
        FieldSet.selectionErrors Vocabulary.requires name (FieldSet.requiredOn a.types name sets)

def clientDirectiveErrors : List Error :=
  a.setting.customDirectives.toList.filterMap fun (name, d) =>
    match clientDirective? d with
    | some (.error arguments) => some (.duplicateDirectiveArguments name arguments)
    | _ => none

/-- The subgraph as far as its event-driven shape depends on it. -/
def eventSubject : Event.Subject where
  roots := a.setting.roots
  types := a.types
  concrete := a.survey.concrete
  keySets := a.survey.keySets
  keyFieldNames := a.keyFieldNames
  applied := a.setting.eventDirectives

def eventErrors : List Error :=
  if a.setting.isEventDriven then
    let faults := a.eventSubject.faults
    if faults.isEmpty then [] else [.invalidEventGraph faults]
  else []

/-- Fields with a subscription filter that are no root fields of event-driven subscriptions. -/
def filterErrors : List Error :=
  a.survey.filters.toList.filterMap fun (path, isSubscription) =>
    if a.setting.isEventDriven && isSubscription then none else some (.misplacedFilter path)

def scopeErrors : List Error :=
  if a.ledger.overLimit.isEmpty then []
  else [.tooManyScopes a.setting.maxOrScopes a.ledger.overLimit.toList]

def errors : List Error :=
  -- First what the walk met, in the order of the text, and then what only the whole can show.
  a.survey.errors ++ a.scopeErrors ++
    (a.ownTypes.flatMap fun (name, entry) => a.typeErrors name entry) ++
    Operation.all.flatMap a.rootErrors ++
    a.undefinedNames.map Error.undefinedType ++
    a.fieldSetErrors ++ a.clientDirectiveErrors ++ a.eventErrors ++ a.filterErrors ++
    if a.setting.isVersionTwo then a.unusedExternals.map Error.unusedExternal else []

def warnings : List Warning :=
  (a.ownTypes.flatMap fun (name, entry) => a.typeWarnings name entry) ++
    a.unimplementedInterfaces.map (.unimplementedInterface a.setting.subgraph) ++
    if a.setting.isVersionTwo then []
    else a.unusedExternals.map (.unusedExternal a.setting.subgraph)

/-! ## The document -/

def inputValueDefinition (name : String) (v : InputValue) : InputValueDefinition where
  name := name
  description := v.description
  type := v.type
  default? := v.default?
  directives := v.directives.flatten

/-- A field, with the directives that declare its requirement after its own. -/
def fieldDefinition (record : Authorization.Record) (name : String) (f : Field) : FieldDefinition where
  name := name
  description := f.description
  arguments := f.arguments.toList.map fun (argument, v) => inputValueDefinition argument v
  type := f.type
  directives := f.directives.flatten ++ (record.field name).directives

def enumValueDefinition (name : String) (v : EnumValue) : EnumValueDefinition :=
  { name, description := v.description, directives := v.directives.flatten }

def leafDirectives (typeName : String) : List Directive :=
  if a.ledger.leafTypes.contains typeName then
    (a.ledger.records.of typeName).requirement.directives
  else []

def typeDefinition (name : String) (entry : TypeEntry) : TypeDefinition :=
  let record := a.ledger.records.of (a.setting.roots.canonicalName name)
  let fields (c : Composite) := c.fields.toList.map fun (field, f) => fieldDefinition record field f
  let own := entry.directives.flatten
  { name, description := entry.description
    directives := if entry.kind.isLeaf then own ++ a.leafDirectives name else own
    body := match entry.shape with
      | .enum values => .enum (values.toList.map fun (value, v) => enumValueDefinition value v)
      | .inputObject fields =>
        .inputObject (fields.toList.map fun (field, v) => inputValueDefinition field v)
      | .interface c => .interface c.implements.toList (fields c)
      | .object c => .object c.implements.toList (fields c)
      | .scalar => .scalar
      | .union members => .union members.toList }

/-- Whether the subscription filter and its types belong to the document. -/
def usesFilter : Bool :=
  a.setting.isEventDriven && a.setting.applied.contains Vocabulary.subscriptionFilter

/-- The catalogued directives that belong to the document. -/
def cataloguedDirectives : List DirectiveDefinition :=
  Catalogue.base ++ (if a.setting.isVersionTwo then Catalogue.versionTwo else []) ++
    Catalogue.events.filter (fun d => a.setting.applied.contains d.name) ++
    if a.usesFilter then [Catalogue.subscriptionFilter] else []

def supportTypes : List TypeDefinition :=
  [Catalogue.scalar Vocabulary.fieldSetScalar] ++
    (if a.setting.isVersionTwo then [Catalogue.scalar Vocabulary.scopeScalar] else []) ++
    if a.usesFilter then Catalogue.filterTypes else []

/-- The schema definition, where the subgraph declares root types. -/
def schemaDefinition? : Option SchemaDefinition :=
  if a.setting.roots.byOperation.isEmpty then none
  else some ⟨a.survey.schemaDirectives.flatten, a.setting.roots.byOperation.toList⟩

/-- Directives and the types that come with them, then the schema, then the types of the subgraph. -/
def document : Document :=
  a.cataloguedDirectives.map .directive ++ a.supportTypes.map .type ++
    a.setting.customDirectives.values.map .directive ++
    a.schemaDefinition?.toList.map .schema ++
    a.ownTypes.map fun (name, entry) => .type (a.typeDefinition name entry)

end Assembly

end Federation
