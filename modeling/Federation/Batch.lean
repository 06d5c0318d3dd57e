import Federation.Membership.Recording
import Federation.Normalization.Outcome

/-!
Batches: the subgraphs of one federation. Each is normalized on its own, its membership into a
recording; then, in order, the recordings go to one graph and the results into one view. If all went
well, the fields that are taken over from a subgraph leave its configuration.
-/

namespace Federation

open Schema

/-- Settings for the normalization of a batch. Whether subgraphs may be normalized at the same time
does not show in what comes out. -/
structure BatchOptions where
  parallel : Bool
  maxOrScopes : Nat
  deriving DecidableEq

def BatchOptions.default : BatchOptions := ⟨true, defaultMaxOrScopes⟩

structure Subgraph where
  name : Option String
  url : Option String
  statements : List Statement

/-- A valid subgraph of a batch, with its name and its place. -/
structure FederatedSubgraph where
  url : Option String
  normal : NormalSubgraph
  configuration : Table String Router.Configuration
  /-- Its fields that other subgraphs took over, by canonical type name. -/
  overriddenFields : Table String NameSet

structure BatchOutcome where
  authorization : Authorization.Records
  concreteTypes : ConcreteTypes
  entities : Table String Router.Entity
  /-- The valid subgraphs that have a name. -/
  subgraphs : Table String FederatedSubgraph
  graph : Membership.Graph
  diagnostics : Diagnostics

def BatchOutcome.isSuccess (o : BatchOutcome) : Bool := !o.diagnostics.anyFatal

/-- What is known of a federation after some of its subgraphs. -/
structure Merger where
  graph : Membership.Graph
  authorization : Authorization.Records
  /-- Hosts that would have too many alternatives. -/
  overLimit : NameSet
  concreteTypes : ConcreteTypes
  entities : Table String Router.Entity
  subgraphs : Table String FederatedSubgraph
  overrides : Overrides
  /-- The subgraphs that take a field over, by the field's path. -/
  overriders : Table String (List String)
  /-- Paths of fields that more than one subgraph takes over. -/
  contested : NameSet
  failures : List Error
  warnings : List Warning

namespace Merger

def empty : Merger where
  graph := .empty
  authorization := .empty
  overLimit := .empty
  concreteTypes := .empty
  entities := .empty
  subgraphs := .empty
  overrides := .empty
  overriders := .empty
  contested := .empty
  failures := []
  warnings := []

/-- Adds a requirement to that of a field, and notes the field where there are too many
alternatives. -/
def mergeField (limit : Nat) (typeName : String) (m : Merger) (field : String × Authorization.Requirement) :
    Merger :=
  let fits := ((m.authorization.of typeName).field field.1).fits limit field.2
  { m with
    authorization := m.authorization.update typeName fun record =>
      record.updateField field.1 fun old => old.conjoin limit field.2
    overLimit := if fits then m.overLimit else m.overLimit.insert (coordinates typeName field.1) }

def mergeRecord (limit : Nat) (m : Merger) (incoming : String × Authorization.Record) : Merger :=
  let (typeName, record) := incoming
  let fits := (m.authorization.of typeName).requirement.fits limit record.requirement
  let m := { m with
    authorization := m.authorization.update typeName fun old =>
      { old with
        coversFields := old.coversFields || record.coversFields
        requirement := old.requirement.conjoin limit record.requirement }
    overLimit := if fits then m.overLimit else m.overLimit.insert typeName }
  record.fields.toList.foldl (mergeField limit typeName) m

def mergeConcrete (m : Merger) (incoming : String × NameSet) : Merger :=
  { m with
    concreteTypes := m.concreteTypes.upsert incoming.1 fun old =>
      (old.getD .empty).union incoming.2 }

def mergeEntity (m : Merger) (incoming : String × Router.Entity) : Merger :=
  { m with
    entities := m.entities.upsert incoming.1 fun
      | none => incoming.2
      | some old => old.union incoming.2 }

def addOverrider (subgraph : String) (m : Merger) (path : String) : Merger :=
  let overriders := (m.overriders.getD path []) ++ [subgraph]
  { m with
    overriders := m.overriders.insert path overriders
    contested := if overriders.length > 1 then m.contested.insert path else m.contested }

/-- Adds the fields of one type that a subgraph takes over from another. Where no subgraph has the name
of the other, there is a warning; the types in it and in paths are named as the subgraph names them. -/
def mergeOverride (names : NameSet) (subgraph target : String) (roots : RootTypes) (m : Merger)
    (incoming : String × NameSet) : Merger :=
  let (canonicalName, fields) := incoming
  let localName := roots.localName canonicalName
  let m :=
    if names.contains target then
      { m with overrides := m.overrides.add target canonicalName fields.toList }
    else
      { m with
        warnings := m.warnings ++
          [.unknownOverrideTarget target localName fields.toList subgraph] }
  (fields.toList.map (coordinates localName)).foldl (addOverrider subgraph) m

def mergeOverrides (names : NameSet) (subgraph : String) (n : NormalSubgraph) (m : Merger) : Merger :=
  n.overrides.toList.foldl (fun m (target, types) =>
    types.toList.foldl (mergeOverride names subgraph target n.roots) m) m

def mergeResult (limit : Nat) (names : NameSet) (reported : String) (given : Subgraph)
    (n : NormalSubgraph) (m : Merger) : Merger :=
  -- Subgraphs without name count for everything but the subgraphs that are handed out.
  let m := n.authorization.toList.foldl (mergeRecord limit) m
  let m := n.concreteTypes.toList.foldl mergeConcrete m
  let m := n.entities.toList.foldl mergeEntity m
  let m := m.mergeOverrides names reported n
  match given.name with
  | none => m
  | some name =>
    let subgraph : FederatedSubgraph :=
      { url := given.url, normal := n, configuration := n.configuration, overriddenFields := .empty }
    { m with subgraphs := m.subgraphs.insert name subgraph }

def merge (limit : Nat) (names : NameSet) (index : Nat) (given : Subgraph) (outcome : Outcome)
    (recording : Membership.Recording) (m : Merger) : Merger :=
  let reported := given.name.getD (reportedName index)
  let m := { m with
    graph := recording.replay m.graph
    warnings := m.warnings ++ outcome.diagnostics.warnings }
  match outcome.result? with
  | none =>
    { m with failures := m.failures ++ [.invalidSubgraph reported outcome.diagnostics.errors] }
  | some n => m.mergeResult limit names reported given n

end Merger

namespace Batch

/-- Takes the given fields of each type from a configuration. A type without fields of its own left
over leaves the configuration. -/
def withoutFields (configuration : Table String Router.Configuration)
    (overridden : Table String NameSet) : Table String Router.Configuration :=
  configuration.filterMap fun typeName c =>
    match overridden.get? typeName with
    | none => some c
    | some fields =>
      let kept := c.fieldNames.filter (!fields.contains ·)
      if kept.isEmpty then none else some { c with fieldNames := kept }

/-- Takes the fields that other subgraphs take over from the subgraphs that have them. -/
def applyOverrides (subgraphs : Table String FederatedSubgraph) (overrides : Overrides) :
    Table String FederatedSubgraph :=
  subgraphs.map fun name s =>
    match overrides.get? name with
    | none => s
    | some overridden =>
      { s with
        configuration := withoutFields s.configuration overridden
        overriddenFields := overridden }

def givenNames (subgraphs : List Subgraph) : List String := subgraphs.filterMap Subgraph.name

def unnamed (subgraphs : List Subgraph) : List Nat :=
  subgraphs.zipIdx.filterMap fun (s, index) => if s.name.isNone then some index else none

def nameErrors (subgraphs : List Subgraph) : List Error :=
  let repeated := (OrderedSet.ofList (OrderedSet.empty.repeated (givenNames subgraphs))).toList
  let unnamed := unnamed subgraphs
  if repeated.isEmpty && unnamed.isEmpty then [] else [.invalidSubgraphNames repeated unnamed]

def contestedErrors (m : Merger) : List Error :=
  let fields := m.contested.toList.map fun path => ⟨path, m.overriders.getD path []⟩
  if fields.isEmpty then [] else [.contestedFields fields]

def normalizeEach (options : BatchOptions) (subgraphs : List Subgraph) :
    List (Subgraph × Outcome × Membership.Recording) :=
  subgraphs.map fun s =>
    let o : NormalizationOptions := ⟨s.name, options.maxOrScopes, false⟩
    (s, normalizeInto o s.statements Membership.Recording.empty)

def mergeAll (options : BatchOptions) (subgraphs : List Subgraph) : Merger :=
  let names := OrderedSet.ofList (givenNames subgraphs)
  (normalizeEach options subgraphs).zipIdx.foldl (fun m ((given, outcome, recording), index) =>
    m.merge options.maxOrScopes names index given outcome recording) .empty

end Batch

def normalizeBatch (options : BatchOptions) (subgraphs : List Subgraph) : BatchOutcome :=
  let m := Batch.mergeAll options subgraphs
  let errors :=
    (if m.overLimit.isEmpty then [] else [.tooManyScopes options.maxOrScopes m.overLimit.toList]) ++
      Batch.nameErrors subgraphs ++ Batch.contestedErrors m ++ m.failures
  { authorization := m.authorization
    concreteTypes := m.concreteTypes
    entities := m.entities
    subgraphs := if errors.isEmpty then Batch.applyOverrides m.subgraphs m.overrides else m.subgraphs
    graph := m.graph
    diagnostics := ⟨errors, m.warnings⟩ }

end Federation
