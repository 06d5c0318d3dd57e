import Federation.Normalization.Survey

/-!
What a definition or an extension adds inside its type: fields with their arguments, enum values and
input values. A definition may not repeat a name; an extension may, and then adds directives to it.
-/

namespace Federation

open Schema

namespace Survey

def sightArgument (setting : Setting) (kind : TypeKind) (parent field : String)
    (acc : Table String InputValue × Survey) (a : InputValueDefinition) :
    Table String InputValue × Survey :=
  let (arguments, s) := acc
  if arguments.contains a.name then
    (arguments, s.report (.duplicateChild kind parent (.argument field a.name)))
  else
    let hostPath := s!"{parent}.{field}({a.name}: ...)"
    let (intake, s) := s.takeIn setting .argumentDefinition hostPath .empty a.directives
    let value : InputValue :=
      { type := a.type, default? := a.default?, directives := intake.accepted
        description := a.description }
    (arguments.insert a.name value, s.refer a.type.namedType)

def recordFieldSets (parent field : String) (applied : AppliedDirectives) (s : Survey) : Survey :=
  let fieldSet? (directive : String) : Option String :=
    (applied.named directive).head?.bind (·.string? Vocabulary.fields)
  let write (table : Table String String) : Option String → Table String String
    | none => table
    | some fieldSet => table.insert field fieldSet
  match fieldSet? Vocabulary.provides, fieldSet? Vocabulary.requires with
  | none, none => s
  | provides, requires =>
    { s with
      fieldSets := s.fieldSets.upsert parent fun old =>
        let old := old.getD .empty
        ⟨write old.provides provides, write old.requires requires⟩ }

/-- Records the event bindings of a field, or reports why there are none. -/
def bindEvents (canonicalName field : String) (applied : AppliedDirectives)
    (arguments : Table String InputValue) (s : Survey) : Survey :=
  (Event.directives applied).foldl (fun s d =>
    match Event.bind field arguments d with
    | .error faults => s.report (.invalidEvent d.name (coordinates canonicalName field) faults)
    | .ok binding =>
      { s with bindings := s.bindings.upsert canonicalName fun old => old.getD [] ++ [binding] }) s

def recordOverrides (canonicalName field : String) (intake : Intake) (s : Survey) : Survey :=
  { s with
    overrides := intake.overridden.foldl
      (fun overrides target => overrides.add target canonicalName [field]) s.overrides }

def recordExternal (path : String) (isExternal : Bool) (s : Survey) : Survey :=
  if isExternal then { s with externals := s.externals.insert path } else s

def recordFilter (path : String) (operation : Option Operation) (applied : AppliedDirectives)
    (s : Survey) : Survey :=
  if applied.contains Vocabulary.subscriptionFilter then
    { s with filters := s.filters.insert path (operation = some .subscription) }
  else s

/-- Adds a field to an object or interface, or adds to a field that is there. The first declaration
settles the type, the description and the event bindings. -/
def mergeField (setting : Setting) (parent : String) (entry : TypeEntry) (existing? : Option Field)
    (f : FieldDefinition) (s : Survey) : Survey :=
  let path := coordinates parent f.name
  let canonicalName := setting.roots.canonicalName parent
  let operation := setting.operation? entry.kind parent
  let before := (existing?.map Field.directives).getD .empty
  let (intake, s) := s.takeIn setting .fieldDefinition path before f.directives
  let s := s.recordOverrides canonicalName f.name intake
  let s := s.authorize setting (.field parent canonicalName f.name) intake
  -- Arguments join those of earlier declarations, so one that is declared again is repeated.
  let (arguments, s) := f.arguments.foldl (sightArgument setting entry.kind parent f.name)
    ((existing?.map Field.arguments).getD .empty, s)
  let applied := intake.accepted
  -- A type that is external as a whole makes its fields external.
  let isExternal :=
    entry.directives.contains Vocabulary.external || applied.contains Vocabulary.external
  let s := s.refer f.type.namedType
    |>.recordExternal path isExternal
    |>.recordFilter path operation applied
    |>.recordFieldSets parent f.name applied
  let field : Field := match existing? with
    | some old =>
      { old with directives := applied, arguments, isExternal := old.isExternal || isExternal }
    | none =>
      { type := f.type, arguments, directives := applied, description := f.description, isExternal }
  let s := match existing? with
    | some _ => s
    | none =>
      let heir : Authorization.Heir :=
        { canonicalParent := canonicalName, parent, field := f.name, namedType := f.type.namedType }
      let s := s.bindEvents canonicalName f.name applied arguments
      { s with ledger := { s.ledger with heirs := s.ledger.heirs ++ [heir] } }
  s.reshape parent (.mapComposite fun c => { c with fields := c.fields.insert f.name field })

/-- Fields of root types that a federation serves by itself. -/
def isReservedField (name : String) : Bool :=
  name ∈ [Vocabulary.serviceField, Vocabulary.entitiesField]

def sightField (setting : Setting) (parent : String) (isExtension : Bool) (s : Survey)
    (f : FieldDefinition) : Survey :=
  match s.types.get? parent with
  | none => s
  | some entry =>
    match entry.composite? with
    | none => s
    | some composite =>
      let existing? := composite.fields.get? f.name
      if (setting.operation? entry.kind parent).isSome && isReservedField f.name then s
      else if existing?.isSome && !isExtension then
        s.report (.duplicateChild entry.kind parent (.field f.name))
      else s.mergeField setting parent entry existing? f

def sightEnumValue (setting : Setting) (parent : String) (isExtension : Bool) (s : Survey)
    (v : EnumValueDefinition) : Survey :=
  match (s.types.get? parent).map TypeEntry.shape with
  | some (.enum values) =>
    let existing? := values.get? v.name
    if existing?.isSome && !isExtension then
      s.report (.duplicateChild .enum parent (.enumValue v.name))
    else
      let before := (existing?.map EnumValue.directives).getD .empty
      let (intake, s) :=
        s.takeIn setting .enumValue (coordinates parent v.name) before v.directives
      let description := match existing? with
        | some old => old.description
        | none => v.description
      let value : EnumValue := { description, directives := intake.accepted }
      s.reshape parent fun
        | .enum values => .enum (values.insert v.name value)
        | shape => shape
  | _ => s

def sightInputValue (setting : Setting) (parent : String) (isExtension : Bool) (s : Survey)
    (v : InputValueDefinition) : Survey :=
  match (s.types.get? parent).map TypeEntry.shape with
  | some (.inputObject fields) =>
    let existing? := fields.get? v.name
    if existing?.isSome && !isExtension then
      s.report (.duplicateChild .inputObject parent (.inputValue v.name))
    else
      let before := (existing?.map InputValue.directives).getD .empty
      let (intake, s) :=
        s.takeIn setting .inputFieldDefinition (coordinates parent v.name) before v.directives
      let value : InputValue := match existing? with
        | some old => { old with directives := intake.accepted }
        | none =>
          { type := v.type, default? := v.default?, directives := intake.accepted
            description := v.description }
      (s.refer v.type.namedType).reshape parent fun
        | .inputObject fields => .inputObject (fields.insert v.name value)
        | shape => shape
  | _ => s

def sightChildren (setting : Setting) (isExtension : Bool) (t : TypeDefinition) (s : Survey) : Survey :=
  match t.body with
  | .enum values => values.foldl (sightEnumValue setting t.name isExtension) s
  | .inputObject fields => fields.foldl (sightInputValue setting t.name isExtension) s
  | .interface _ fields | .object _ fields => fields.foldl (sightField setting t.name isExtension) s
  | .scalar | .union _ => s

end Survey

end Federation
