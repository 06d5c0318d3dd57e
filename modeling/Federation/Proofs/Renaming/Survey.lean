import Federation.Proofs.Normalization.Sightings
import Federation.Proofs.Renaming.FieldSet
import Federation.Proofs.Renaming.Setting
import Federation.Proofs.Survey.Course

/-!
# Surveys of renamed statements

The survey of a statement and that of the renamed one stay alike at every step: what is kept under names of types is
kept under the new names, what is kept under canonical names stays where it is, and an error is made of the one where
one is made of the other.
-/

namespace Federation

open Schema

variable {ρ : Renaming} {own : Operation}

namespace Authorization

def Heir.rename (ρ : Renaming) (heir : Heir) : Heir :=
  { heir with parent := ρ heir.parent, namedType := ρ heir.namedType }

/-- Ledgers of a subgraph before and after its types are renamed. The enums and scalars with requirements stay. -/
structure Ledger.Mirrors (ρ : Renaming) (l l' : Ledger) : Prop where
  records : l'.records = l.records
  leafTypes : l'.leafTypes = l.leafTypes
  settled : ∀ name ∈ l.leafTypes.toList, ρ name = name
  heirs : l'.heirs = l.heirs.map (Heir.rename ρ)
  overLimit : l'.overLimit = l.overLimit.map ρ ρ.injective

namespace Ledger.Mirrors

variable {l l' : Ledger} (h : l.Mirrors ρ l') {limit : Nat} {applied : List Directive}

include h

theorem declare_field {parent canonicalParent name : String} :
    (l.declare limit (.field parent canonicalParent name) applied).Mirrors ρ
      (l'.declare limit (.field (ρ parent) canonicalParent name) applied) := by
  have overLimit : l'.overLimit.insert (Host.field (ρ parent) canonicalParent name).path =
      (l.overLimit.insert (Host.field parent canonicalParent name).path).map ρ ρ.injective := by
    rw [h.overLimit, ← OrderedSet.insert_map]
    exact congrArg _ (ρ.coordinates parent name).symm
  unfold declare
  dsimp only
  split
  · exact h
  · exact { h with overLimit }
  · exact { h with records := by rw [h.records] }

theorem declare_leaf {typeName : String} (stays : ρ typeName = typeName) :
    (l.declare limit (.leaf typeName) applied).Mirrors ρ (l'.declare limit (.leaf (ρ typeName)) applied) := by
  have overLimit : l'.overLimit.insert (Host.leaf (ρ typeName)).path =
      (l.overLimit.insert (Host.leaf typeName).path).map ρ ρ.injective := by
    rw [h.overLimit]
    exact OrderedSet.insert_map _ _
  have settled : ∀ name ∈ (l.leafTypes.insert typeName).toList, ρ name = name := fun name member =>
    (OrderedSet.mem_insert.mp member).elim (h.settled name) fun same => same ▸ stays
  unfold declare
  dsimp only
  split
  · exact h
  · exact { h with overLimit }
  · exact { h with records := by rw [h.records, stays], leafTypes := by rw [h.leafTypes, stays], settled }

end Ledger.Mirrors

end Authorization

namespace Event

variable (arguments : Table String InputValue)

theorem referenceFaults_rename (template : String) :
    referenceFaults (arguments.map fun _ => InputValue.rename ρ) template = referenceFaults arguments template := by
  simp only [referenceFaults, Table.contains_map]

theorem subjects_rename (d : Directive) (argument : SubjectArgument) :
    subjects (arguments.map fun _ => InputValue.rename ρ) d argument = subjects arguments d argument := by
  have listed (name : String) (values : List Value) :
      listedSubjects (arguments.map fun _ => InputValue.rename ρ) name values =
        listedSubjects arguments name values := by
    induction values with
    | nil => rfl
    | cons v rest ih => simp only [listedSubjects, ih, referenceFaults_rename]
  cases argument with
  | single => simp only [subjects, referenceFaults_rename]
  | list => simp only [subjects, listed]

/-- A binding tells arguments by their names alone. -/
theorem bind_rename (field : String) (d : Directive) :
    bind field (arguments.map fun _ => InputValue.rename ρ) d = bind field arguments d := by
  simp only [bind, subjects_rename]

end Event

/-- Surveys of a subgraph before and after its types are renamed. -/
structure Survey.Mirrors (ρ : Renaming) (s s' : Survey) : Prop where
  errors : s'.errors = [] ↔ s.errors = []
  repeats : s'.repeats = s.repeats.rename ρ
  schemaDirectives : s'.schemaDirectives = s.schemaDirectives
  types : s'.types = s.types.rename ρ
  ledger : s.ledger.Mirrors ρ s'.ledger
  concrete : s'.concrete = s.concrete.rename ρ
  keySets : s'.keySets = s.keySets.rekey ρ ρ.injective id
  fieldSets : s'.fieldSets = s.fieldSets.rekey ρ ρ.injective id
  overrides : s'.overrides = s.overrides
  referenced : s'.referenced = s.referenced.map ρ ρ.injective
  externals : s'.externals = s.externals.map ρ ρ.injective
  filters : s'.filters = s.filters.rekey ρ ρ.injective id
  bindings : s'.bindings = s.bindings

namespace Survey.Mirrors

variable {setting setting' : Setting} {s s' : Survey} (h : s.Mirrors ρ s')

include h

/-- Steps that keep surveys alike do so one after another. -/
theorem foldl {α : Type} {step step' : Survey → α → Survey} {items : List α}
    (one : ∀ x ∈ items, ∀ s s' : Survey, s.Mirrors ρ s' → (step s x).Mirrors ρ (step' s' x)) :
    (items.foldl step s).Mirrors ρ (items.foldl step' s') := by
  induction items generalizing s s' with
  | nil => exact h
  | cons x rest ih =>
    exact ih (one x List.mem_cons_self s s' h) fun y member => one y (List.mem_cons_of_mem x member)

theorem reportAll {es es' : List Error} (same : es' = [] ↔ es = []) : (s.reportAll es).Mirrors ρ (s'.reportAll es') :=
  { h with errors := by simp [Survey.reportAll, h.errors, same] }

theorem report (e e' : Error) : (s.report e).Mirrors ρ (s'.report e') :=
  { h with errors := by simp [Survey.report] }

theorem refer (typeName : String) : (s.refer typeName).Mirrors ρ (s'.refer (ρ typeName)) := by
  have referenced : s'.referenced.insert (ρ typeName) = (s.referenced.insert typeName).map ρ ρ.injective := by
    rw [h.referenced]
    exact OrderedSet.insert_map _ _
  exact { h with referenced }

theorem addConcrete (abstractName concreteName : String) :
    (s.addConcrete abstractName concreteName).Mirrors ρ (s'.addConcrete (ρ abstractName) (ρ concreteName)) := by
  have concrete : s'.concrete.add (ρ abstractName) (ρ concreteName) =
      (s.concrete.add abstractName concreteName).rename ρ := by
    rw [h.concrete, ConcreteTypes.add_rename]
  exact { h with concrete }

theorem reshape (typeName : String) {f f' : Shape → Shape}
    (same : ∀ shape : Shape, f' (shape.rename ρ) = (f shape).rename ρ) :
    (s.reshape typeName f).Mirrors ρ (s'.reshape (ρ typeName) f') := by
  have types : (s'.reshape (ρ typeName) f').types = (s.reshape typeName f).types.rename ρ := by
    simp only [Survey.reshape, h.types]
    exact Table.adjust_rekey s.types typeName fun entry => by simp only [TypeEntry.rename, same]
  exact { h with types }

theorem register (typeName : String) {entry entry' : TypeEntry} (same : entry' = entry.rename ρ) :
    Survey.Mirrors ρ { s with types := s.types.insert typeName entry }
      { s' with types := s'.types.insert (ρ typeName) entry' } := by
  refine { h with types := ?_ }
  rw [h.types, same]
  exact Table.insert_rekey s.types typeName entry

theorem takeIn (alike : setting.Mirrors ρ own setting') (location : Location) (hostPath : String)
    (accepted : AppliedDirectives) (applied : List Directive) :
    (s.takeIn setting location hostPath accepted applied).1.Mirrors ρ
        (s'.takeIn setting' location (ρ hostPath) accepted applied).1 ∧
      (s.takeIn setting location hostPath accepted applied).2.Mirrors ρ
        (s'.takeIn setting' location (ρ hostPath) accepted applied).2 := by
  have intake := Intake.run_rename alike location hostPath accepted s.repeats applied
  simp only [Survey.takeIn, h.repeats]
  exact ⟨intake, { h with repeats := intake.repeats, errors := by simp [h.errors, intake.errors] }⟩

theorem authorize_field (alike : setting.Mirrors ρ own setting') {intake intake' : Intake}
    (same : intake.Mirrors ρ intake') (parent canonicalParent name : String) :
    (s.authorize setting (.field parent canonicalParent name) intake).Mirrors ρ
      (s'.authorize setting' (.field (ρ parent) canonicalParent name) intake') := by
  unfold Survey.authorize
  rw [alike.maxOrScopes, same.authorization]
  exact { h with ledger := h.ledger.declare_field }

theorem authorize_leaf (alike : setting.Mirrors ρ own setting') {intake intake' : Intake}
    (same : intake.Mirrors ρ intake') {typeName : String} (stays : ρ typeName = typeName) :
    (s.authorize setting (.leaf typeName) intake).Mirrors ρ
      (s'.authorize setting' (.leaf (ρ typeName)) intake') := by
  unfold Survey.authorize
  rw [alike.maxOrScopes, same.authorization]
  exact { h with ledger := h.ledger.declare_leaf stays }

theorem sightSchema (alike : setting.Mirrors ρ own setting') (d d' : SchemaDefinition)
    (directives : d'.directives = d.directives) :
    (s.sightSchema setting d).Mirrors ρ (s'.sightSchema setting' d') := by
  have taken := h.takeIn alike .schema "schema" s.schemaDirectives d.directives
  rw [ρ.keeps "schema" (by decide)] at taken
  unfold Survey.sightSchema
  rw [h.schemaDirectives, directives]
  exact { taken.2 with schemaDirectives := taken.1.accepted }

/-! ## Types -/

theorem recordKeys (typeName : String) {applied applied' : AppliedDirectives} (same : applied' = applied) :
    (s.recordKeys typeName applied).Mirrors ρ (s'.recordKeys (ρ typeName) applied') := by
  subst same
  unfold Survey.recordKeys
  dsimp only
  split
  · refine { h with keySets := ?_ }
    rw [h.keySets]
    exact Table.upsert_rekey s.keySets typeName fun old => by simp
  · exact h

omit h in
theorem listedNames_rename (t : TypeDefinition) : (t.rename ρ).body.listedNames = t.body.listedNames.map ρ := by
  obtain ⟨_, _, _, body⟩ := t
  cases body <;> rfl

theorem recordMembers (t : TypeDefinition) (listed : NameSet) :
    (s.recordMembers t listed).Mirrors ρ (s'.recordMembers (t.rename ρ) (listed.map ρ ρ.injective)) := by
  unfold Survey.recordMembers
  rw [listedNames_rename, OrderedSet.fresh_map, List.foldl_map]
  have builtIn (member : String) : ρ member ∈ Vocabulary.builtInScalars ↔ member ∈ Vocabulary.builtInScalars :=
    Renaming.mem_iff_of_keeps fun scalar member => ρ.keeps scalar (by revert member; revert scalar; decide)
  refine h.foldl fun member _ s s' h => ?_
  simp only [builtIn]
  split
  · exact h.addConcrete t.name member
  · exact (h.addConcrete t.name member).refer member

theorem recordImplementations (typeName : String) :
    (s.recordImplementations typeName).Mirrors ρ (s'.recordImplementations (ρ typeName)) := by
  unfold Survey.recordImplementations
  rw [h.types, Table.get?_rekey, Option.map_map]
  cases s.types.get? typeName with
  | none => exact h
  | some entry =>
    obtain ⟨_, _, _, _, shape⟩ := entry
    cases shape with
    | object c =>
      simp only [Option.map_some, Function.comp_apply, TypeEntry.rename, Shape.rename, Composite.implements_rename,
        OrderedSet.toList_map, List.foldl_map]
      exact h.foldl fun interface _ s s' h => h.addConcrete interface typeName
    | enum | inputObject | interface | scalar | union => exact h

theorem takeInType (alike : setting.Mirrors ρ own setting') (t : TypeDefinition) (old? : Option TypeEntry)
    (stays : t.kind.isLeaf = true → ρ t.name = t.name) :
    (s.takeInType setting t old?).1.Mirrors ρ (s'.takeInType setting' (t.rename ρ) (old?.map (·.rename ρ))).1 ∧
      (s.takeInType setting t old?).2.Mirrors ρ
        (s'.takeInType setting' (t.rename ρ) (old?.map (·.rename ρ))).2 := by
  have before : ((old?.map (·.rename ρ)).map TypeEntry.directives).getD .empty =
      (old?.map TypeEntry.directives).getD .empty := by
    cases old? <;> rfl
  obtain ⟨intake, taken⟩ :=
    h.takeIn alike t.kind.location t.name ((old?.map TypeEntry.directives).getD .empty) t.directives
  unfold Survey.takeInType
  rw [before, TypeDefinition.kind_rename]
  cases kind : t.kind with
  | enum | scalar =>
    rw [kind] at intake taken
    exact ⟨intake, taken.authorize_leaf alike intake (stays (by rw [kind]; rfl))⟩
  | object | interface =>
    rw [kind] at intake taken
    exact ⟨intake, taken.recordKeys t.name intake.accepted⟩
  | inputObject | union =>
    rw [kind] at intake taken
    exact ⟨intake, taken⟩

omit h in
theorem relistingErrors_rename (t : TypeDefinition) (listed : NameSet) :
    relistingErrors (t.rename ρ) (listed.map ρ ρ.injective) = [] ↔ relistingErrors t listed = [] := by
  unfold relistingErrors
  rw [listedNames_rename, OrderedSet.repeated_map]
  simp

omit h in
theorem extensionOf_rename (alike : setting.Mirrors ρ own setting') {isExtension : Bool} {t : TypeDefinition}
    (settled : ρ.Settles own t.name) {intake intake' : Intake} (same : intake.Mirrors ρ intake') :
    extensionOf setting' isExtension (t.rename ρ) intake' = extensionOf setting isExtension t intake := by
  have operation : setting'.operation? (t.rename ρ).kind (t.rename ρ).name = setting.operation? t.kind t.name := by
    rw [TypeDefinition.kind_rename]
    exact alike.operation? settled
  unfold extensionOf
  rw [operation, alike.isVersionTwo, same.hasExtends]

end Survey.Mirrors

/-! A definition of a type and the renamed one go through the same stages. -/

namespace Survey.TypeMerge

/-- The definition after the types are renamed, met by a survey that calls them so. -/
def rename (ρ : Renaming) (m : TypeMerge) (setting' : Setting) (s' : Survey) : TypeMerge :=
  ⟨setting', m.isExtension, m.type.rename ρ, s'⟩

variable {m : TypeMerge} {setting' : Setting} {s' : Survey} (alike : m.setting.Mirrors ρ own setting')
  (settled : ρ.Settles own m.type.name) (stays : m.type.kind.isLeaf = true → ρ m.type.name = m.type.name)
  (h : m.before.Mirrors ρ s')

theorem kind_rename : (m.rename ρ setting' s').type.kind = m.type.kind := m.type.kind_rename

theorem listedNames_rename : (m.rename ρ setting' s').type.body.listedNames = m.type.body.listedNames.map ρ :=
  Mirrors.listedNames_rename m.type

include h

theorem old?_rename : (m.rename ρ setting' s').old? = m.old?.map (·.rename ρ) := by
  have same : s'.types.get? (ρ m.type.name) = (m.before.types.get? m.type.name).map (·.rename ρ) := by
    rw [h.types]
    exact Table.get?_rekey m.before.types m.type.name
  exact same

theorem noted_rename : m.noted.Mirrors ρ (m.rename ρ setting' s').noted := by
  unfold noted
  rw [kind_rename]
  split
  · exact { h with }
  · exact h

theorem listed_rename : (m.rename ρ setting' s').listed = m.listed.map ρ ρ.injective := by
  unfold listed
  rw [old?_rename h]
  cases m.old? with
  | none => rfl
  | some old => exact old.shape.listedNames_rename

include alike stays

theorem taken_rename :
    m.taken.1.Mirrors ρ (m.rename ρ setting' s').taken.1 ∧ m.taken.2.Mirrors ρ (m.rename ρ setting' s').taken.2 := by
  unfold taken
  rw [old?_rename h]
  exact (noted_rename h).takeInType alike m.type m.old? stays

theorem reported_rename : m.reported.Mirrors ρ (m.rename ρ setting' s').reported := by
  unfold reported
  rw [listed_rename h]
  exact (taken_rename alike stays h).2.reportAll (Mirrors.relistingErrors_rename m.type m.listed)

theorem joined_rename : m.joined.Mirrors ρ (m.rename ρ setting' s').joined := by
  unfold joined
  rw [kind_rename, listed_rename h]
  split
  · exact (reported_rename alike stays h).recordMembers m.type m.listed
  · exact reported_rename alike stays h

include settled

theorem extension_rename : (m.rename ρ setting' s').extension = m.extension :=
  Mirrors.extensionOf_rename alike settled (taken_rename alike stays h).1

theorem entry_rename : (m.rename ρ setting' s').entry = m.entry.rename ρ := by
  unfold entry
  rw [old?_rename h, kind_rename, (taken_rename alike stays h).1.accepted, extension_rename alike settled stays h,
    listedNames_rename, TypeEntry.rename_sighted]
  simp only [TypeEntry.rename, Shape.rename_list]
  rfl

theorem registered_rename : m.registered.Mirrors ρ (m.rename ρ setting' s').registered :=
  (joined_rename alike stays h).register m.type.name (entry_rename alike settled stays h)

theorem settled_rename : m.settled.Mirrors ρ (m.rename ρ setting' s').settled := by
  unfold TypeMerge.settled
  rw [old?_rename h, extension_rename alike settled stays h, TypeEntry.isSecondBase_rename]
  split
  · exact (registered_rename alike settled stays h).report _ _
  · exact registered_rename alike settled stays h

theorem after_rename : m.after.Mirrors ρ (m.rename ρ setting' s').after :=
  (settled_rename alike settled stays h).recordImplementations m.type.name

end Survey.TypeMerge

namespace Survey.Mirrors

variable {setting setting' : Setting} {s s' : Survey} (h : s.Mirrors ρ s')

include h

theorem merge (alike : setting.Mirrors ρ own setting') (isExtension : Bool) {t : TypeDefinition}
    (settled : ρ.Settles own t.name) (stays : t.kind.isLeaf = true → ρ t.name = t.name) :
    (s.merge setting isExtension t).Mirrors ρ (s'.merge setting' isExtension (t.rename ρ)) :=
  TypeMerge.after_rename (m := ⟨setting, isExtension, t, s⟩) alike settled stays h

/-! ## Fields and values -/

theorem sightArgument (alike : setting.Mirrors ρ own setting') (kind : TypeKind) (parent field : String)
    (arguments : Table String InputValue) (a : InputValueDefinition) :
    (Survey.sightArgument setting' kind (ρ parent) field (arguments.map fun _ => InputValue.rename ρ, s')
        (a.rename ρ)).1 =
        (Survey.sightArgument setting kind parent field (arguments, s) a).1.map (fun _ => InputValue.rename ρ) ∧
      (Survey.sightArgument setting kind parent field (arguments, s) a).2.Mirrors ρ
        (Survey.sightArgument setting' kind (ρ parent) field (arguments.map fun _ => InputValue.rename ρ, s')
          (a.rename ρ)).2 := by
  have path : s!"{ρ parent}.{field}({a.name}: ...)" = ρ s!"{parent}.{field}({a.name}: ...)" := by
    change ρ parent ++ "." ++ field ++ "(" ++ a.name ++ ": ...)" =
      ρ (parent ++ "." ++ field ++ "(" ++ a.name ++ ": ...)")
    simpa only [String.append_assoc] using (ρ.path parent (field ++ "(" ++ a.name ++ ": ...)")).symm
  obtain ⟨intake, taken⟩ := h.takeIn alike .argumentDefinition s!"{parent}.{field}({a.name}: ...)" .empty a.directives
  simp only [Survey.sightArgument, InputValueDefinition.rename, Table.contains_map, path]
  split
  · exact ⟨rfl, h.report _ _⟩
  · refine ⟨?_, ?_⟩
    · rw [intake.accepted]
      exact Table.insert_map (g := InputValue.rename ρ) arguments a.name
        { type := a.type, default? := a.default?, directives := _, description := a.description }
    · rw [TypeRef.namedType_rename]
      exact taken.refer _

theorem recordFieldSets (parent field : String) (applied : AppliedDirectives) :
    (s.recordFieldSets parent field applied).Mirrors ρ (s'.recordFieldSets (ρ parent) field applied) := by
  unfold Survey.recordFieldSets
  dsimp only
  split
  · exact h
  · refine { h with fieldSets := ?_ }
    rw [h.fieldSets]
    exact Table.upsert_rekey s.fieldSets parent fun old => by simp

theorem bindEvents (canonicalName field : String) (applied : AppliedDirectives)
    (arguments : Table String InputValue) :
    (s.bindEvents canonicalName field applied arguments).Mirrors ρ
      (s'.bindEvents canonicalName field applied (arguments.map fun _ => InputValue.rename ρ)) := by
  unfold Survey.bindEvents
  simp only [Event.bind_rename]
  refine h.foldl fun d _ s s' h => ?_
  split
  · exact h.report _ _
  · exact { h with bindings := by rw [h.bindings] }

theorem recordOverrides (canonicalName field : String) {intake intake' : Intake} (same : intake.Mirrors ρ intake') :
    (s.recordOverrides canonicalName field intake).Mirrors ρ (s'.recordOverrides canonicalName field intake') := by
  unfold Survey.recordOverrides
  rw [same.overridden]
  exact { h with overrides := by rw [h.overrides] }

theorem recordExternal (parent field : String) (isExternal : Bool) :
    (s.recordExternal (coordinates parent field) isExternal).Mirrors ρ
      (s'.recordExternal (coordinates (ρ parent) field) isExternal) := by
  unfold Survey.recordExternal
  split
  · refine { h with externals := ?_ }
    rw [h.externals, ← ρ.coordinates]
    exact OrderedSet.insert_map s.externals (coordinates parent field)
  · exact h

theorem recordFilter (parent field : String) (operation : Option Operation) (applied : AppliedDirectives) :
    (s.recordFilter (coordinates parent field) operation applied).Mirrors ρ
      (s'.recordFilter (coordinates (ρ parent) field) operation applied) := by
  unfold Survey.recordFilter
  split
  · refine { h with filters := ?_ }
    rw [h.filters, ← ρ.coordinates]
    exact Table.insert_rekey (g := id) s.filters (coordinates parent field) _
  · exact h

theorem sightArguments (alike : setting.Mirrors ρ own setting') (kind : TypeKind) (parent field : String)
    (given : List InputValueDefinition) (arguments : Table String InputValue) :
    ((given.map (·.rename ρ)).foldl (Survey.sightArgument setting' kind (ρ parent) field)
        (arguments.map fun _ => InputValue.rename ρ, s')).1 =
        (given.foldl (Survey.sightArgument setting kind parent field) (arguments, s)).1.map
          (fun _ => InputValue.rename ρ) ∧
      (given.foldl (Survey.sightArgument setting kind parent field) (arguments, s)).2.Mirrors ρ
        ((given.map (·.rename ρ)).foldl (Survey.sightArgument setting' kind (ρ parent) field)
          (arguments.map fun _ => InputValue.rename ρ, s')).2 := by
  induction given generalizing arguments s s' with
  | nil => exact ⟨rfl, h⟩
  | cons a rest ih =>
    obtain ⟨same, one⟩ := h.sightArgument alike kind parent field arguments a
    have rest := ih one (Survey.sightArgument setting kind parent field (arguments, s) a).1
    rw [← same] at rest
    exact rest

end Survey.Mirrors

/-! A declaration of a field and the renamed one go through the same stages. -/

namespace Survey.FieldMerge

/-- The declaration after the types are renamed, met by a survey that calls them so. -/
def rename (ρ : Renaming) (m : FieldMerge) (setting' : Setting) (s' : Survey) : FieldMerge :=
  ⟨setting', ρ m.parent, m.entry.rename ρ, m.existing?.map (Field.rename ρ), m.declaration.rename ρ, s'⟩

variable {m : FieldMerge} {setting' : Setting} {s' : Survey} (alike : m.setting.Mirrors ρ own setting')
  (settled : ρ.Settles own m.parent) (h : m.before.Mirrors ρ s')

theorem existing?_rename : (m.rename ρ setting' s').existing? = m.existing?.map (Field.rename ρ) := rfl

theorem namedType_rename :
    (m.rename ρ setting' s').declaration.type.namedType = ρ m.declaration.type.namedType :=
  TypeRef.namedType_rename ..

theorem directives_rename :
    ((m.rename ρ setting' s').existing?.map Field.directives).getD .empty =
      (m.existing?.map Field.directives).getD .empty := by
  unfold rename
  cases m.existing? <;> rfl

theorem arguments_rename :
    ((m.rename ρ setting' s').existing?.map Field.arguments).getD .empty =
      ((m.existing?.map Field.arguments).getD .empty).map fun _ => InputValue.rename ρ := by
  unfold rename
  cases m.existing? <;> rfl

theorem kind_rename : (m.rename ρ setting' s').entry.kind = m.entry.kind := TypeEntry.kind_rename ..

include alike

include settled in
theorem canonicalName_rename : (m.rename ρ setting' s').canonicalName = m.canonicalName :=
  alike.roots.canonicalName settled

include settled in
theorem heir_rename : (m.rename ρ setting' s').heir = m.heir.rename ρ := by
  unfold heir
  rw [canonicalName_rename alike settled, namedType_rename]
  rfl

include h

theorem taken_rename :
    m.taken.1.Mirrors ρ (m.rename ρ setting' s').taken.1 ∧ m.taken.2.Mirrors ρ (m.rename ρ setting' s').taken.2 := by
  have found := h.takeIn alike .fieldDefinition (coordinates m.parent m.declaration.name)
    ((m.existing?.map Field.directives).getD .empty) m.declaration.directives
  rw [ρ.coordinates] at found
  unfold taken
  rw [directives_rename]
  exact found

theorem applied_rename : (m.rename ρ setting' s').applied = m.applied := (taken_rename alike h).1.accepted

theorem isExternal_rename : (m.rename ρ setting' s').isExternal = m.isExternal := by
  unfold isExternal
  rw [applied_rename alike h]
  exact congrArg (fun d : AppliedDirectives => d.contains _ || _) m.entry.directives_rename

include settled

theorem admitted_rename : m.admitted.Mirrors ρ (m.rename ρ setting' s').admitted := by
  obtain ⟨intake, taken⟩ := taken_rename alike h
  unfold admitted
  rw [canonicalName_rename alike settled]
  exact (taken.recordOverrides m.canonicalName m.declaration.name intake).authorize_field alike intake m.parent
    m.canonicalName m.declaration.name

theorem argued_rename :
    (m.rename ρ setting' s').argued.1 = m.argued.1.map (fun _ => InputValue.rename ρ) ∧
      m.argued.2.Mirrors ρ (m.rename ρ setting' s').argued.2 := by
  unfold argued
  rw [arguments_rename, kind_rename]
  exact (admitted_rename alike settled h).sightArguments alike m.entry.kind m.parent m.declaration.name
    m.declaration.arguments _

theorem marked_rename : m.marked.Mirrors ρ (m.rename ρ setting' s').marked := by
  unfold marked
  rw [namedType_rename, isExternal_rename alike h]
  exact ((argued_rename alike settled h).2.refer m.declaration.type.namedType).recordExternal m.parent
    m.declaration.name m.isExternal

theorem filtered_rename : m.filtered.Mirrors ρ (m.rename ρ setting' s').filtered := by
  have operation : (m.rename ρ setting' s').setting.operation? (m.rename ρ setting' s').entry.kind
      (m.rename ρ setting' s').parent = m.setting.operation? m.entry.kind m.parent := by
    rw [kind_rename]
    exact alike.operation? settled
  unfold filtered
  rw [operation, applied_rename alike h]
  exact (marked_rename alike settled h).recordFilter m.parent m.declaration.name _ m.applied

theorem noted_rename : m.noted.Mirrors ρ (m.rename ρ setting' s').noted := by
  unfold noted
  rw [applied_rename alike h]
  exact (filtered_rename alike settled h).recordFieldSets m.parent m.declaration.name m.applied

theorem bound_rename : m.bound.Mirrors ρ (m.rename ρ setting' s').bound := by
  have bound := (noted_rename alike settled h).bindEvents m.canonicalName m.declaration.name m.applied m.argued.1
  unfold FieldMerge.bound
  rw [applied_rename alike h, (argued_rename alike settled h).1, canonicalName_rename alike settled,
    heir_rename alike settled, existing?_rename]
  cases m.existing? with
  | some old => exact noted_rename alike settled h
  | none =>
    refine { bound with ledger := { bound.ledger with heirs := ?_ } }
    rw [List.map_append, ← bound.ledger.heirs]
    rfl

theorem field_rename : (m.rename ρ setting' s').field = m.field.rename ρ := by
  unfold field
  rw [applied_rename alike h, (argued_rename alike settled h).1, isExternal_rename alike h]
  unfold rename
  cases m.existing? <;> rfl

theorem after_rename : m.after.Mirrors ρ (m.rename ρ setting' s').after := by
  unfold after
  rw [field_rename alike settled h]
  exact (bound_rename alike settled h).reshape m.parent fun shape =>
    shape.insertField_rename m.declaration.name m.field

end Survey.FieldMerge

namespace Survey.Mirrors

variable {setting setting' : Setting} {s s' : Survey} (h : s.Mirrors ρ s')

include h

theorem mergeField (alike : setting.Mirrors ρ own setting') {parent : String} (settled : ρ.Settles own parent)
    (entry : TypeEntry) (existing? : Option Field) (f : FieldDefinition) :
    (s.mergeField setting parent entry existing? f).Mirrors ρ
      (s'.mergeField setting' (ρ parent) (entry.rename ρ) (existing?.map (Field.rename ρ)) (f.rename ρ)) := by
  have merged := FieldMerge.after_rename (m := ⟨setting, parent, entry, existing?, f, s⟩) alike settled h
  rwa [FieldMerge.after_eq, FieldMerge.after_eq] at merged

theorem sightField (alike : setting.Mirrors ρ own setting') {parent : String} (settled : ρ.Settles own parent)
    (isExtension : Bool) (f : FieldDefinition) :
    (s.sightField setting parent isExtension f).Mirrors ρ
      (s'.sightField setting' (ρ parent) isExtension (f.rename ρ)) := by
  unfold Survey.sightField
  rw [h.types, Table.get?_rekey]
  cases s.types.get? parent with
  | none => exact h
  | some entry =>
    simp only [Option.map_some, TypeEntry.composite?_rename]
    cases entry.composite? with
    | none => exact h
    | some composite =>
      simp only [Option.map_some, Composite.fields_rename, Table.get?_map, FieldDefinition.rename, Option.isSome_map,
        TypeEntry.kind_rename, alike.operation? settled]
      split
      · exact h
      split
      · exact h.report _ _
      · exact h.mergeField alike settled entry (composite.fields.get? f.name) f

theorem sightEnumValue (alike : setting.Mirrors ρ own setting') (parent : String) (isExtension : Bool)
    (v : EnumValueDefinition) :
    (s.sightEnumValue setting parent isExtension v).Mirrors ρ
      (s'.sightEnumValue setting' (ρ parent) isExtension v) := by
  unfold Survey.sightEnumValue
  rw [h.types, Table.get?_rekey, Option.map_map]
  cases s.types.get? parent with
  | none => exact h
  | some entry =>
    obtain ⟨_, _, _, _, shape⟩ := entry
    cases shape with
    | enum values =>
      simp only [Option.map_some, Function.comp_apply, TypeEntry.rename, Shape.rename]
      split
      · exact h.report _ _
      · obtain ⟨intake, taken⟩ := h.takeIn alike .enumValue (coordinates parent v.name)
          (((values.get? v.name).map EnumValue.directives).getD .empty) v.directives
        rw [ρ.coordinates] at intake taken
        refine taken.reshape parent fun shape => ?_
        rw [intake.accepted]
        cases shape <;> rfl
    | inputObject | interface | object | scalar | union => exact h

theorem sightInputValue (alike : setting.Mirrors ρ own setting') (parent : String) (isExtension : Bool)
    (v : InputValueDefinition) :
    (s.sightInputValue setting parent isExtension v).Mirrors ρ
      (s'.sightInputValue setting' (ρ parent) isExtension (v.rename ρ)) := by
  unfold Survey.sightInputValue
  rw [h.types, Table.get?_rekey, Option.map_map]
  cases s.types.get? parent with
  | none => exact h
  | some entry =>
    obtain ⟨_, _, _, _, shape⟩ := entry
    cases shape with
    | inputObject fields =>
      have before : (((fields.get? v.name).map (InputValue.rename ρ)).map InputValue.directives).getD .empty =
          ((fields.get? v.name).map InputValue.directives).getD .empty := by
        cases fields.get? v.name <;> rfl
      simp only [Option.map_some, Function.comp_apply, TypeEntry.rename, Shape.rename, InputValueDefinition.rename,
        Table.get?_map, Option.isSome_map, before, TypeRef.namedType_rename]
      split
      · exact h.report _ _
      · obtain ⟨intake, taken⟩ := h.takeIn alike .inputFieldDefinition (coordinates parent v.name)
          (((fields.get? v.name).map InputValue.directives).getD .empty) v.directives
        rw [ρ.coordinates] at intake taken
        refine (taken.refer v.type.namedType).reshape parent fun shape => ?_
        rw [intake.accepted]
        generalize (Survey.takeIn setting _ _ _ _ s).1.accepted = accepted
        cases shape with
        | inputObject values =>
          -- The type and the default are those that the field was seen with first.
          cases fields.get? v.name with
          | none =>
            exact congrArg Shape.inputObject (Table.insert_map (g := InputValue.rename ρ) values v.name
              ⟨v.type, v.default?, accepted, v.description⟩)
          | some old =>
            exact congrArg Shape.inputObject (Table.insert_map (g := InputValue.rename ρ) values v.name
              ⟨old.type, old.default?, accepted, old.description⟩)
        | enum | interface | object | scalar | union => rfl
    | enum | interface | object | scalar | union => exact h

theorem sightChildren (alike : setting.Mirrors ρ own setting') (isExtension : Bool) {t : TypeDefinition}
    (settled : ρ.Settles own t.name) :
    (s.sightChildren setting isExtension t).Mirrors ρ (s'.sightChildren setting' isExtension (t.rename ρ)) := by
  have fields (fields : List FieldDefinition) :
      Mirrors ρ (fields.foldl (Survey.sightField setting t.name isExtension) s)
        ((fields.map (·.rename ρ)).foldl (Survey.sightField setting' (ρ t.name) isExtension) s') := by
    rw [List.foldl_map]
    exact h.foldl fun f _ s s' h => h.sightField alike settled isExtension f
  obtain ⟨name, _, _, body⟩ := t
  cases body with
  | enum values => exact h.foldl fun v _ s s' h => h.sightEnumValue alike name isExtension v
  | inputObject values =>
    simp only [Survey.sightChildren, TypeDefinition.rename, TypeBody.rename, List.foldl_map]
    exact h.foldl fun v _ s s' h => h.sightInputValue alike name isExtension v
  | interface _ declared => exact fields declared
  | object _ declared => exact fields declared
  | scalar | union => exact h

theorem sightType (alike : setting.Mirrors ρ own setting') (isExtension : Bool) {t : TypeDefinition}
    (settled : ρ.Settles own t.name) (stays : t.kind.isLeaf = true → ρ t.name = t.name) :
    (s.sightType setting isExtension t).Mirrors ρ (s'.sightType setting' isExtension (t.rename ρ)) := by
  -- The names that are passed by are kept, so no other name becomes one of them.
  have reserved : isReservedType (t.rename ρ) = isReservedType t := by
    have service : ρ t.name = Vocabulary.serviceType ↔ t.name = Vocabulary.serviceType :=
      Renaming.eq_iff_of_keeps (ρ.keeps _ (by decide))
    have entity : ρ t.name = Vocabulary.entityUnion ↔ t.name = Vocabulary.entityUnion :=
      Renaming.eq_iff_of_keeps (ρ.keeps _ (by decide))
    simp only [isReservedType, TypeDefinition.kind_rename, TypeDefinition.name_rename, service, entity]
  have merged := (h.merge alike isExtension settled stays).sightChildren alike isExtension settled
  have kind : s'.types.kind? (t.rename ρ).name = s.types.kind? t.name := by
    rw [h.types]
    exact s.types.kind?_rename t.name
  unfold Survey.sightType
  rw [reserved, kind, TypeDefinition.kind_rename]
  split
  · exact h
  split
  · exact merged
  split
  · exact merged
  · exact h.report _ _

/-- One statement and the renamed one add alike to surveys. -/
theorem step (alike : setting.Mirrors ρ own setting') {x : Statement}
    (settled : ∀ t, x.type? = some t → ρ.Settles own t.name ∧ (t.kind.isLeaf = true → ρ t.name = t.name)) :
    (s.step setting x).Mirrors ρ (s'.step setting' (x.rename ρ)) := by
  rcases x with (d | d | t) | d | t
  · exact h
  · exact h.sightSchema alike d (d.rename ρ) rfl
  · exact h.sightType alike false (settled t rfl).1 (settled t rfl).2
  · exact h.sightSchema alike d (d.rename ρ) rfl
  · exact h.sightType alike true (settled t rfl).1 (settled t rfl).2

theorem steps (alike : setting.Mirrors ρ own setting') {statements : List Statement}
    (settled : ∀ x ∈ statements, ∀ t, x.type? = some t →
      ρ.Settles own t.name ∧ (t.kind.isLeaf = true → ρ t.name = t.name)) :
    (statements.foldl (Survey.step setting) s).Mirrors ρ
      ((statements.map (·.rename ρ)).foldl (Survey.step setting') s') := by
  rw [List.foldl_map]
  exact h.foldl fun x member s s' h => h.step alike (settled x member)

end Survey.Mirrors

theorem Survey.start_mirrors {errors errors' : List Error} (same : errors' = [] ↔ errors = []) :
    (start errors).Mirrors ρ (start errors') where
  errors := same
  repeats := rfl
  schemaDirectives := rfl
  types := rfl
  ledger := ⟨rfl, rfl, nofun, rfl, rfl⟩
  concrete := rfl
  keySets := rfl
  fieldSets := rfl
  overrides := rfl
  referenced := rfl
  externals := rfl
  filters := rfl
  bindings := rfl

end Federation
