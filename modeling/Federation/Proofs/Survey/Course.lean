import Federation.Proofs.Survey.Part

/-!
# The course of a merge

A declaration of a field and a definition of a type are merged in several stages. Each stage has a name here, so that
what a merge does can be shown stage by stage.
-/

namespace Federation

open Schema

namespace Survey

/-! ## Declarations of fields -/

/-- A declaration of a field and the survey that meets it. -/
structure FieldMerge where
  setting : Setting
  parent : String
  entry : TypeEntry
  existing? : Option Field
  declaration : FieldDefinition
  before : Survey

namespace FieldMerge

variable (m : FieldMerge)

def canonicalName : String := m.setting.roots.canonicalName m.parent

/-- The directives of the field are taken in, after those that it has. -/
def taken : Intake × Survey :=
  m.before.takeIn m.setting .fieldDefinition (coordinates m.parent m.declaration.name)
    ((m.existing?.map Field.directives).getD .empty) m.declaration.directives

/-- What the directives override and require is recorded. -/
def admitted : Survey :=
  (m.taken.2.recordOverrides m.canonicalName m.declaration.name m.taken.1).authorize m.setting
    (.field m.parent m.canonicalName m.declaration.name) m.taken.1

/-- The arguments join those that the field has. -/
def argued : Table String InputValue × Survey :=
  m.declaration.arguments.foldl (sightArgument m.setting m.entry.kind m.parent m.declaration.name)
    ((m.existing?.map Field.arguments).getD .empty, m.admitted)

def applied : AppliedDirectives := m.taken.1.accepted

def isExternal : Bool :=
  m.entry.directives.contains Vocabulary.external || m.applied.contains Vocabulary.external

/-- The type of the field is referred to, and the field is marked if it is external. -/
def marked : Survey :=
  (m.argued.2.refer m.declaration.type.namedType).recordExternal (coordinates m.parent m.declaration.name) m.isExternal

def filtered : Survey :=
  m.marked.recordFilter (coordinates m.parent m.declaration.name) (m.setting.operation? m.entry.kind m.parent) m.applied

/-- All is noted that every declaration of the field says. -/
def noted : Survey := m.filtered.recordFieldSets m.parent m.declaration.name m.applied

def heir : Authorization.Heir where
  canonicalParent := m.canonicalName
  parent := m.parent
  field := m.declaration.name
  namedType := m.declaration.type.namedType

/-- A field that is new is bound to its events and inherits requirements. -/
def bound : Survey :=
  match m.existing? with
  | some _ => m.noted
  | none =>
    let s := m.noted.bindEvents m.canonicalName m.declaration.name m.applied m.argued.1
    { s with ledger := { s.ledger with heirs := s.ledger.heirs ++ [m.heir] } }

/-- The field as it is registered in the end. -/
def field : Field :=
  match m.existing? with
  | some old =>
    { old with directives := m.applied, arguments := m.argued.1, isExternal := old.isExternal || m.isExternal }
  | none =>
    { type := m.declaration.type, arguments := m.argued.1, directives := m.applied
      description := m.declaration.description, isExternal := m.isExternal }

def after : Survey :=
  m.bound.reshape m.parent (.mapComposite fun c => { c with fields := c.fields.insert m.declaration.name m.field })

/-- The same declaration, met by another survey. -/
def on (s : Survey) : FieldMerge := { m with before := s }

@[simp]
theorem existing?_on (s : Survey) : (m.on s).existing? = m.existing? := rfl

theorem after_eq : m.after = m.before.mergeField m.setting m.parent m.entry m.existing? m.declaration := by
  obtain ⟨_, _, _, _ | _, _, _⟩ := m <;> rfl

theorem writes_admitted : Writes [.errors, .repeats, .overrides, .ledger] m.before m.admitted := by
  have taken : Writes [.errors, .repeats] m.before m.taken.2 := writes_takeIn ..
  refine .next ?_ (writes_authorize ..) (by decide)
  exact (taken.mono (by decide)).next (writes_recordOverrides ..) (by decide)

theorem writes_argued : Writes [.errors, .repeats, .referenced] m.admitted m.argued.2 :=
  writes_sightArguments m.setting m.entry.kind m.parent m.declaration.name m.declaration.arguments
    ((m.existing?.map Field.arguments).getD .empty, m.admitted)

theorem writes_marked : Writes [.referenced, .externals] m.argued.2 m.marked :=
  .next ((writes_refer ..).mono (by decide)) (writes_recordExternal ..) (by decide)

theorem writes_filtered : Writes [.filters] m.marked m.filtered := writes_recordFilter ..

theorem writes_noted : Writes [.fieldSets] m.filtered m.noted := writes_recordFieldSets ..

theorem writes_records : Writes [.referenced, .externals, .filters, .fieldSets] m.argued.2 m.noted := by
  refine .next ?_ m.writes_noted (by decide)
  exact (m.writes_marked.mono (by decide)).next m.writes_filtered (by decide)

theorem writes_bound : Writes [.errors, .bindings, .ledger] m.noted m.bound := by
  unfold bound
  split
  · exact .refl m.noted
  · exact ((writes_bindEvents ..).mono (by decide)).next (writes_ledger ..) (by decide)

theorem writes_after : Writes [.types] m.bound m.after := writes_reshape ..

/-- Overrides are recorded before the arguments are looked at, and not again. -/
theorem writes_later :
    Writes [.errors, .repeats, .types, .ledger, .fieldSets, .referenced, .externals, .filters, .bindings] m.admitted
      m.after := by
  refine .next ?_ m.writes_after (by decide)
  refine .next ?_ m.writes_bound (by decide)
  exact (m.writes_argued.mono (by decide)).next m.writes_records (by decide)

end FieldMerge

/-- The parts that a declaration of a field may write. -/
def Part.ofField : List Part :=
  [.errors, .repeats, .types, .ledger, .fieldSets, .overrides, .referenced, .externals, .filters, .bindings]

theorem FieldMerge.writes (m : FieldMerge) : Writes Part.ofField m.before m.after :=
  (m.writes_admitted.mono (by decide)).next m.writes_later (by decide)

/-! ## Types -/

theorem intake_takeInType (setting : Setting) (t : TypeDefinition) (old? : Option TypeEntry) (s : Survey) :
    (s.takeInType setting t old?).1 =
      (s.takeIn setting t.kind.location t.name ((old?.map TypeEntry.directives).getD .empty) t.directives).1 := by
  unfold takeInType
  dsimp only
  cases t.kind <;> rfl

/-- A definition or an extension of a type and the survey that meets it. -/
structure TypeMerge where
  setting : Setting
  isExtension : Bool
  type : TypeDefinition
  before : Survey

namespace TypeMerge

variable (m : TypeMerge)

def old? : Option TypeEntry := m.before.types.get? m.type.name

/-- An enum or a scalar is noted. -/
def noted : Survey :=
  if m.type.kind.isLeaf then { m.before with facts := m.before.facts ++ [.leaf m.type.name] } else m.before

def taken : Intake × Survey := m.noted.takeInType m.setting m.type m.old?

def extension : Extension := extensionOf m.setting m.isExtension m.type m.taken.1

/-- The interfaces or members that are listed already. -/
def listed : NameSet := (m.old?.map fun old => old.shape.listedNames).getD .empty

/-- What is listed again is reported. -/
def reported : Survey := m.taken.2.reportAll (relistingErrors m.type m.listed)

/-- New members of a union are noted. -/
def joined : Survey := if m.type.kind = .union then m.reported.recordMembers m.type m.listed else m.reported

/-- The entry as it is registered. -/
def entry : TypeEntry :=
  let entry := TypeEntry.sighted m.old? m.type.kind m.type.description m.taken.1.accepted m.extension
  { entry with shape := entry.shape.list m.type.body.listedNames }

def registered : Survey := { m.joined with types := m.joined.types.insert m.type.name m.entry }

/-- A second base definition is reported. -/
def settled : Survey :=
  if TypeEntry.isSecondBase m.old? m.extension then m.registered.report (.duplicateType m.type.kind m.type.name)
  else m.registered

def after : Survey := m.settled.recordImplementations m.type.name

/-- The same definition, met by another survey. -/
def on (s : Survey) : TypeMerge := { m with before := s }

@[simp]
theorem type_on (s : Survey) : (m.on s).type = m.type := rfl

theorem after_eq : m.after = m.before.merge m.setting m.isExtension m.type := rfl

theorem writes_noted : Writes [.facts] m.before m.noted := by
  unfold noted
  split
  · exact writes_facts m.before _
  · exact .refl m.before

theorem writes_taken : Writes [.errors, .repeats, .ledger, .keySets] m.noted m.taken.2 := writes_takeInType ..

theorem writes_reported : Writes [.errors] m.taken.2 m.reported := writes_reportAll ..

theorem writes_joined : Writes [.concrete, .facts, .referenced] m.reported m.joined := by
  unfold joined
  split
  · exact writes_recordMembers ..
  · exact .refl m.reported

theorem writes_registered : Writes [.types] m.joined m.registered := writes_types ..

theorem writes_settled : Writes [.errors] m.registered m.settled := by
  unfold settled
  split
  · exact writes_report ..
  · exact .refl m.registered

theorem writes_after : Writes [.concrete, .facts] m.settled m.after := writes_recordImplementations ..

theorem writes_ahead : Writes [.facts, .errors, .repeats, .ledger, .keySets] m.before m.reported := by
  refine .next ?_ m.writes_reported (by decide)
  exact (m.writes_noted.mono (by decide)).next m.writes_taken (by decide)

theorem writes_registration : Writes [.types, .errors, .concrete, .facts] m.joined m.after := by
  refine .next ?_ m.writes_after (by decide)
  exact (m.writes_registered.mono (by decide)).next m.writes_settled (by decide)

/-- Requirements and keys are recorded when the directives are taken in, and not again. -/
theorem writes_later : Writes [.errors, .types, .concrete, .facts, .referenced] m.taken.2 m.after := by
  refine .next ?_ m.writes_registration (by decide)
  exact (m.writes_reported.mono (by decide)).next m.writes_joined (by decide)

end TypeMerge

/-- The parts that a definition or an extension of a type may write. -/
def Part.ofType : List Part :=
  [.errors, .repeats, .types, .ledger, .concrete, .facts, .keySets, .referenced]

theorem TypeMerge.writes (m : TypeMerge) : Writes Part.ofType m.before m.after := by
  refine .next ?_ m.writes_registration (by decide)
  exact (m.writes_ahead.mono (by decide)).next m.writes_joined (by decide)

/-! ## What a merge writes -/

theorem writes_mergeField (setting : Setting) (s : Survey) (parent : String) (entry : TypeEntry)
    (existing? : Option Field) (f : FieldDefinition) :
    Writes Part.ofField s (s.mergeField setting parent entry existing? f) := by
  have written := FieldMerge.writes ⟨setting, parent, entry, existing?, f, s⟩
  rwa [FieldMerge.after_eq] at written

theorem writes_merge (setting : Setting) (s : Survey) (isExtension : Bool) (t : TypeDefinition) :
    Writes Part.ofType s (s.merge setting isExtension t) :=
  TypeMerge.writes ⟨setting, isExtension, t, s⟩

theorem writes_sightField (setting : Setting) (s : Survey) (parent : String) (isExtension : Bool)
    (f : FieldDefinition) : Writes Part.ofField s (s.sightField setting parent isExtension f) := by
  unfold sightField
  split
  · exact .refl s
  · split
    · exact .refl s
    · dsimp only
      split
      · exact .refl s
      · split
        · exact (writes_report ..).mono (by decide)
        · exact writes_mergeField ..

/-- What stands inside a type may write whatever fields, enum values and input values may. -/
theorem writes_sightChildren (setting : Setting) (s : Survey) (isExtension : Bool) (t : TypeDefinition) :
    Writes Part.ofField s (s.sightChildren setting isExtension t) := by
  unfold sightChildren
  cases t.body with
  | enum values =>
    exact .foldl _ (fun s v => (writes_sightEnumValue setting s t.name isExtension v).mono (by decide)) values s
  | inputObject fields =>
    exact .foldl _ (fun s v => (writes_sightInputValue setting s t.name isExtension v).mono (by decide)) fields s
  | interface _ fields | object _ fields =>
    exact .foldl _ (fun s f => writes_sightField setting s t.name isExtension f) fields s
  | scalar | union => exact .refl s

/-- A type writes everything but the directives on the schema. -/
theorem writes_sightType (setting : Setting) (s : Survey) (isExtension : Bool) (t : TypeDefinition) :
    Writes (Part.ofType ++ Part.ofField) s (s.sightType setting isExtension t) := by
  have merged : Writes (Part.ofType ++ Part.ofField) s
      ((s.merge setting isExtension t).sightChildren setting isExtension t) :=
    ((writes_merge setting s isExtension t).mono (by decide)).next (writes_sightChildren ..) (by decide)
  unfold sightType
  split
  · exact .refl s
  · split
    · exact merged
    · split
      · exact merged
      · exact (writes_report ..).mono (by decide)

end Survey

end Federation
