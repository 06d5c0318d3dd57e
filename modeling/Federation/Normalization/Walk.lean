import Federation.Normalization.Child
import Federation.Registry.Sighting

/-!
The walk over the statements of a subgraph. Every definition and extension of a type is merged into one
entry of the registry; a type that is registered with another kind is reported and changes nothing else.
-/

namespace Federation

open Schema

namespace Survey

/-- Whether and how a definition extends another. The directive counts only under the first version of
the rules and not on root types. -/
def extensionOf (setting : Setting) (isExtension : Bool) (t : TypeDefinition) (intake : Intake) :
    Extension :=
  if isExtension then .byKeyword
  else if (setting.operation? t.kind t.name).isSome || setting.isVersionTwo || !intake.hasExtends then
    .none
  else .byDirective

/-- Records the field sets of the keys on an object or interface. Of two keys with one field set the
first decides whether it can be resolved. -/
def recordKeys (typeName : String) (applied : AppliedDirectives) (s : Survey) : Survey :=
  let resolvable (key : Directive) : Bool :=
    ((key.argument? Vocabulary.resolvable).bind Value.boolean?).getD true
  if applied.contains Vocabulary.key then
    { s with
      keySets := s.keySets.upsert typeName fun old =>
        (applied.named Vocabulary.key).foldl (fun sets key =>
          match key.string? Vocabulary.fields with
          -- A key that is accepted has a field set, so nothing is lost here.
          | none => sets
          | some fieldSet => sets.insertNew fieldSet (resolvable key)) (old.getD .empty) }
  else s

/-- The errors of interfaces and members that are listed again. -/
def relistingErrors (t : TypeDefinition) (listed : NameSet) : List Error :=
  (listed.repeated t.body.listedNames).map fun name =>
    if t.kind = .union then .duplicateMember t.name name else .duplicateInterface t.kind t.name name

/-- Notes the members that a union definition adds. -/
def recordMembers (t : TypeDefinition) (listed : NameSet) (s : Survey) : Survey :=
  (listed.fresh t.body.listedNames).foldl (fun s member =>
    let s := s.addConcrete t.name member
    -- A built-in scalar is reported as a member that is no object, so it need not be looked for.
    if member ∈ Vocabulary.builtInScalars then s else s.refer member) s

/-- Notes that an object is concrete for every interface that it implements so far. -/
def recordImplementations (typeName : String) (s : Survey) : Survey :=
  match (s.types.get? typeName).map TypeEntry.shape with
  | some (.object c) =>
    c.implements.toList.foldl (fun s interface => s.addConcrete interface typeName) s
  | _ => s

def takeInType (setting : Setting) (t : TypeDefinition) (old? : Option TypeEntry) (s : Survey) :
    Intake × Survey :=
  let before := (old?.map TypeEntry.directives).getD .empty
  let (intake, s) := s.takeIn setting t.kind.location t.name before t.directives
  match t.kind with
  | .enum | .scalar => (intake, s.authorize setting (.leaf t.name) intake)
  | .object | .interface => (intake, s.recordKeys t.name intake.accepted)
  | .inputObject | .union => (intake, s)

/-- Merges a definition or an extension into the entry of its type. -/
def merge (setting : Setting) (isExtension : Bool) (t : TypeDefinition) (s : Survey) : Survey :=
  let old? := s.types.get? t.name
  let s := if t.kind.isLeaf then { s with facts := s.facts ++ [.leaf t.name] } else s
  let (intake, s) := s.takeInType setting t old?
  let extension := extensionOf setting isExtension t intake
  -- Repetitions count against what earlier definitions listed as well as within this one.
  let listed := (old?.map fun old => old.shape.listedNames).getD .empty
  let s := s.reportAll (relistingErrors t listed)
  let s := if t.kind = .union then s.recordMembers t listed else s
  let entry := TypeEntry.sighted old? t.kind t.description intake.accepted extension
  let entry := { entry with shape := entry.shape.list t.body.listedNames }
  let s := { s with types := s.types.insert t.name entry }
  -- A second base definition is reported, and all that it says counts.
  let s := if TypeEntry.isSecondBase old? extension then s.report (.duplicateType t.kind t.name) else s
  s.recordImplementations t.name

/-- Types that a federation adds by itself. -/
def isReservedType (t : TypeDefinition) : Bool :=
  (t.kind = .object && t.name = Vocabulary.serviceType) ||
    (t.kind = .union && t.name = Vocabulary.entityUnion)

def sightType (setting : Setting) (isExtension : Bool) (s : Survey) (t : TypeDefinition) : Survey :=
  if isReservedType t then s
  else
    match s.types.kind? t.name with
    | none => (s.merge setting isExtension t).sightChildren setting isExtension t
    | some existing =>
      if existing = t.kind then (s.merge setting isExtension t).sightChildren setting isExtension t
      else s.report (.conflictingKinds t.name existing t.kind)

def sightSchema (setting : Setting) (s : Survey) (d : SchemaDefinition) : Survey :=
  let (intake, s) := s.takeIn setting .schema "schema" s.schemaDirectives d.directives
  { s with schemaDirectives := intake.accepted }

/-- Looks at one statement. Definitions of directives belong to the setting. -/
def step (setting : Setting) (s : Survey) : Statement → Survey
  | .define (.schema d) | .extendSchema d => s.sightSchema setting d
  | .define (.type t) => s.sightType setting false t
  | .extendType t => s.sightType setting true t
  | .define (.directive _) => s

def walk (setting : Setting) (errors : List Error) (statements : List Statement) : Survey :=
  statements.foldl (step setting) (start errors)

end Survey

end Federation
