import Federation.Proofs.Directive.Order
import Federation.Proofs.Survey.Event

/-!
# What a survey keeps is orderly

At all times of a survey, whatever it has reported, the directives on each host are in order, every type that is
referred to is noted, and so is a field with a subscription filter. Members of unions are the exception: those with the
name of a built-in scalar are not noted.
-/

namespace Federation

open Schema

namespace Survey

/-! ## What is noted stays noted -/

/-- From one survey to the other references and filters stay noted. -/
structure Notes (a b : Survey) : Prop where
  referenced : ∀ name ∈ a.referenced.toList, name ∈ b.referenced.toList
  filters : a.filters.toList ≠ [] → b.filters.toList ≠ []

/-- From one survey to the other types and the directives on the schema stay as well. -/
structure Remembers (a b : Survey) : Prop extends Notes a b where
  types : b.types = a.types
  schemaDirectives : b.schemaDirectives = a.schemaDirectives

theorem Notes.of_writes {a b : Survey} {parts : List Part} (written : Writes parts a b)
    (referenced : .referenced ∉ parts) (filters : .filters ∉ parts) : Notes a b where
  referenced _ member := written.same .referenced referenced ▸ member
  filters some := written.same .filters filters ▸ some

theorem Notes.trans {a b c : Survey} (first : Notes a b) (second : Notes b c) : Notes a c :=
  ⟨fun name member => second.referenced name (first.referenced name member),
    fun some => second.filters (first.filters some)⟩

namespace Remembers

/-- A step that writes nothing of this. -/
theorem of_writes {a b : Survey} {parts : List Part} (written : Writes parts a b)
    (apart : ∀ part ∈ [.referenced, .filters, .types, .schemaDirectives], part ∉ parts) : Remembers a b where
  toNotes := .of_writes written (apart _ (by decide)) (apart _ (by decide))
  types := written.same .types (apart _ (by decide))
  schemaDirectives := written.same .schemaDirectives (apart _ (by decide))

theorem refl (a : Survey) : Remembers a a := of_writes (Writes.refl a : Writes [] a a) (by decide)

theorem trans {a b c : Survey} (first : Remembers a b) (second : Remembers b c) : Remembers a c where
  toNotes := first.toNotes.trans second.toNotes
  types := second.types.trans first.types
  schemaDirectives := second.schemaDirectives.trans first.schemaDirectives

theorem foldl {α : Type} (step : Survey → α → Survey) (one : ∀ s x, Remembers s (step s x)) (xs : List α)
    (s : Survey) : Remembers s (xs.foldl step s) :=
  List.foldlRecOn xs step (refl s) fun s' before x _ => before.trans (one s' x)

end Remembers

variable (setting : Setting) {s : Survey}

theorem remembers_refer (typeName : String) : Remembers s (s.refer typeName) where
  referenced _ member := OrderedSet.mem_insert.mpr (.inl member)
  filters := id
  types := rfl
  schemaDirectives := rfl

theorem mem_referenced_refer (typeName : String) : typeName ∈ (s.refer typeName).referenced.toList :=
  OrderedSet.mem_insert.mpr (.inr rfl)

theorem filters_recordFilter {applied : AppliedDirectives}
    (filtered : applied.contains Vocabulary.subscriptionFilter = true) (path : String) (operation : Option Operation) :
    (s.recordFilter path operation applied).filters.toList ≠ [] := by
  rw [recordFilter, if_pos filtered]
  have written : path ∈ (s.filters.insert path (operation = some .subscription)).keys :=
    Table.mem_keys_upsert.mpr (.inr rfl)
  exact fun none => List.ne_nil_of_mem written (congrArg (List.map Prod.fst) none)

theorem remembers_recordFilter (path : String) (operation : Option Operation) (applied : AppliedDirectives) :
    Remembers s (s.recordFilter path operation applied) := by
  cases filtered : applied.contains Vocabulary.subscriptionFilter with
  | true =>
    have some := filters_recordFilter (s := s) filtered path operation
    rw [recordFilter, if_pos filtered] at some ⊢
    exact ⟨⟨fun _ => id, fun _ => some⟩, rfl, rfl⟩
  | false =>
    rw [recordFilter, if_neg (Bool.eq_false_iff.mp filtered)]
    exact .refl s

theorem remembers_noteMembers (t : TypeDefinition) (members : List String) :
    Remembers s (members.foldl (fun s member =>
      let s := s.addConcrete t.name member
      if member ∈ Vocabulary.builtInScalars then s else s.refer member) s) := by
  refine .foldl _ (fun s member => ?_) _ s
  have added : Remembers s (s.addConcrete t.name member) := .of_writes (writes_addConcrete ..) (by decide)
  dsimp only
  split
  · exact added
  · exact added.trans (remembers_refer member)

theorem remembers_recordMembers (t : TypeDefinition) (listed : NameSet) : Remembers s (s.recordMembers t listed) :=
  remembers_noteMembers t _

/-- A member of a union is noted where it is new and no built-in scalar. -/
theorem mem_referenced_recordMembers {t : TypeDefinition} {listed : NameSet} {member : String}
    (new : member ∈ listed.fresh t.body.listedNames) (noScalar : member ∉ Vocabulary.builtInScalars) :
    member ∈ (s.recordMembers t listed).referenced.toList := by
  unfold recordMembers
  generalize listed.fresh t.body.listedNames = members at new ⊢
  induction members generalizing s with
  | nil => exact absurd new List.not_mem_nil
  | cons first rest ih =>
    rw [List.foldl_cons]
    rcases List.mem_cons.mp new with rfl | later
    · rw [if_neg noScalar]
      -- It is noted now, and the later ones change nothing about that.
      exact (remembers_noteMembers t rest).referenced member (mem_referenced_refer member)
    · exact ih later

end Survey

/-! ## Orderly types -/

/-- An argument or an input field that keeps its directives in order and whose type is noted. -/
structure InputValue.Orderly (setting : Setting) (location : Location) (s : Survey) (v : InputValue) : Prop where
  directives : v.directives.InOrder setting location
  referenced : v.type.namedType ∈ s.referenced.toList

structure Field.Orderly (setting : Setting) (s : Survey) (f : Field) : Prop where
  directives : f.directives.InOrder setting .fieldDefinition
  referenced : f.type.namedType ∈ s.referenced.toList
  filtered : f.directives.contains Vocabulary.subscriptionFilter = true → s.filters.toList ≠ []
  arguments : ∀ name v, f.arguments.get? name = some v → v.Orderly setting .argumentDefinition s

def Shape.Orderly (setting : Setting) (s : Survey) : Shape → Prop
  | .enum values => ∀ name v, values.get? name = some v → v.directives.InOrder setting .enumValue
  | .inputObject fields => ∀ name v, fields.get? name = some v → v.Orderly setting .inputFieldDefinition s
  | .interface c | .object c => ∀ name f, c.fields.get? name = some f → f.Orderly setting s
  | .scalar => True
  | .union members =>
    ∀ member ∈ members.toList, member ∉ Vocabulary.builtInScalars → member ∈ s.referenced.toList

structure TypeEntry.Orderly (setting : Setting) (s : Survey) (entry : TypeEntry) : Prop where
  directives : entry.directives.InOrder setting entry.kind.location
  shape : entry.shape.Orderly setting s

/-- A survey whose types are orderly, and whose schema keeps its directives in order. -/
structure Survey.Orderly (setting : Setting) (s : Survey) : Prop where
  schema : s.schemaDirectives.InOrder setting .schema
  types : ∀ name entry, s.types.get? name = some entry → entry.Orderly setting s

section Monotone

variable {setting : Setting} {s s' : Survey} (notes : Survey.Notes s s')

include notes

theorem InputValue.Orderly.mono {location : Location} {v : InputValue} (orderly : v.Orderly setting location s) :
    v.Orderly setting location s' :=
  ⟨orderly.directives, notes.referenced _ orderly.referenced⟩

theorem Field.Orderly.mono {f : Field} (orderly : f.Orderly setting s) : f.Orderly setting s' where
  directives := orderly.directives
  referenced := notes.referenced _ orderly.referenced
  filtered has := notes.filters (orderly.filtered has)
  arguments name v known := (orderly.arguments name v known).mono notes

theorem Shape.Orderly.mono {shape : Shape} (orderly : shape.Orderly setting s) : shape.Orderly setting s' := by
  cases shape with
  | enum | scalar => exact orderly
  | inputObject fields => exact fun name v known => (orderly name v known).mono notes
  | interface c => exact fun name f known => (orderly name f known).mono notes
  | object c => exact fun name f known => (orderly name f known).mono notes
  | union members => exact fun member listed noScalar => notes.referenced _ (orderly member listed noScalar)

theorem TypeEntry.Orderly.mono {entry : TypeEntry} (orderly : entry.Orderly setting s) : entry.Orderly setting s' :=
  ⟨orderly.directives, orderly.shape.mono notes⟩

end Monotone

namespace Shape

variable {setting : Setting} {s : Survey}

theorem orderly_ofKind (kind : TypeKind) : (ofKind kind).Orderly setting s := by
  cases kind with
  | scalar => trivial
  | enum | inputObject | interface | object | union => exact nofun

theorem Orderly.field {shape : Shape} (orderly : shape.Orderly setting s) {c : Composite}
    (composite : shape.composite? = some c) {name : String} {f : Field} (known : c.fields.get? name = some f) :
    f.Orderly setting s := by
  cases shape with
  | interface | object =>
    obtain rfl := Option.some.inj composite
    exact orderly name f known
  | enum | inputObject | scalar | union => exact absurd composite nofun

/-- A shape may list more names. What is new of it then are members of unions, which must be noted. -/
theorem Orderly.list {shape : Shape} {body : TypeBody} (same : shape.kind = body.kind)
    (orderly : shape.Orderly setting s)
    (members : body.kind = .union → ∀ member ∈ shape.listedNames.fresh body.listedNames,
      member ∉ Vocabulary.builtInScalars → member ∈ s.referenced.toList) :
    (shape.list body.listedNames).Orderly setting s := by
  cases shape with
  | enum | inputObject | interface | object | scalar => exact orderly
  | union listed =>
    intro member inside noScalar
    rw [OrderedSet.toList_insertAll] at inside
    rcases List.mem_append.mp inside with old | new
    · exact orderly member old noScalar
    · exact members same.symm member new noScalar

end Shape

namespace Survey

variable {setting : Setting} {s : Survey}

/-- What a host keeps after it takes in more directives is in order. -/
theorem inOrder_takeIn {location : Location} {accepted : AppliedDirectives} {applied : List Directive}
    (hostPath : String) (known : ∀ d ∈ applied, d.name ∈ setting.applied.toList)
    (before : accepted.InOrder setting location) :
    (s.takeIn setting location hostPath accepted applied).1.accepted.InOrder setting location :=
  Intake.inOrder_run known before

/-- A host begins with what it has kept before, if there is anything. -/
theorem inOrder_takeIn_getD {α : Type} {directives : α → AppliedDirectives} {old? : Option α} {location : Location}
    {applied : List Directive} (hostPath : String) (known : ∀ d ∈ applied, d.name ∈ setting.applied.toList)
    (before : ∀ old, old? = some old → (directives old).InOrder setting location) :
    (s.takeIn setting location hostPath ((old?.map directives).getD .empty) applied).1.accepted.InOrder setting
      location := by
  apply inOrder_takeIn hostPath known
  cases old? with
  | none => exact .empty setting location
  | some old => exact before old rfl

theorem orderly_start (setting : Setting) (errors : List Error) : (start errors).Orderly setting :=
  ⟨.empty setting .schema, nofun⟩

theorem Orderly.of_remembers {s' : Survey} (before : s.Orderly setting) (same : Remembers s s') :
    s'.Orderly setting where
  schema := same.schemaDirectives ▸ before.schema
  types name entry known := (before.types name entry (same.types ▸ known)).mono same.toNotes

theorem Orderly.field? (before : s.Orderly setting) {typeName name : String} {f : Field}
    (known : s.types.field? typeName name = some f) : f.Orderly setting s := by
  obtain ⟨c, composite, known⟩ := Option.bind_eq_some_iff.mp known
  obtain ⟨entry, registered, composite⟩ := Option.bind_eq_some_iff.mp composite
  exact (before.types typeName entry registered).shape.field composite known

/-- A type may change its shape as long as that stays orderly and of its kind. -/
theorem Orderly.reshape (before : s.Orderly setting) {typeName : String} {f : Shape → Shape}
    (kind : ∀ shape, (f shape).kind = shape.kind)
    (kept : ∀ shape, shape.Orderly setting s → (f shape).Orderly setting s) :
    (s.reshape typeName f).Orderly setting := by
  refine ⟨before.schema, fun name entry known => ?_⟩
  have notes : Notes s (s.reshape typeName f) := ⟨fun _ => id, id⟩
  rw [Survey.reshape, Table.get?_adjust] at known
  split at known
  · obtain ⟨old, registered, rfl⟩ := Option.map_eq_some_iff.mp known
    have orderly := before.types name old registered
    refine ⟨?_, (kept _ orderly.shape).mono notes⟩
    rw [TypeEntry.kind, kind]
    exact orderly.directives
  · exact (before.types name entry known).mono notes

theorem Orderly.insertField (before : s.Orderly setting) {field : Field} (orderly : field.Orderly setting s)
    (parent name : String) :
    (s.reshape parent (.mapComposite fun c => { c with fields := c.fields.insert name field })).Orderly setting := by
  refine before.reshape (Shape.kind_mapComposite _) fun shape inside => ?_
  cases shape with
  | interface | object =>
    intro other field' found
    rw [Table.get?_insert] at found
    split at found
    · exact Option.some.inj found ▸ orderly
    · exact inside other field' found
  | enum | inputObject | scalar | union => exact inside

/-! ## What is inside a type -/

/-- The arguments of a field while they are looked at, one after the other from a survey on. -/
structure OrderlyArguments (setting : Setting) (s : Survey) (acc : Table String InputValue × Survey) : Prop where
  remembers : Remembers s acc.2
  orderly : ∀ name v, acc.1.get? name = some v → v.Orderly setting .argumentDefinition acc.2

theorem orderlyArguments_sightArgument (kind : TypeKind) (parent field : String) {a : InputValueDefinition}
    (known : ∀ d ∈ a.directives, d.name ∈ setting.applied.toList) {acc : Table String InputValue × Survey}
    (before : OrderlyArguments setting s acc) :
    OrderlyArguments setting s (sightArgument setting kind parent field acc a) := by
  obtain ⟨table, s'⟩ := acc
  obtain ⟨remembers, orderly⟩ := before
  unfold sightArgument
  dsimp only at remembers orderly ⊢
  split
  · have reported (e : Error) : Remembers s' (s'.report e) := .of_writes (writes_report ..) (by decide)
    exact ⟨remembers.trans (reported _), fun name v found => (orderly name v found).mono (reported _).toNotes⟩
  · have taken := writes_takeIn setting s' .argumentDefinition s!"{parent}.{field}({a.name}: ...)" .empty a.directives
    have referred := (Remembers.of_writes taken (by decide)).trans (remembers_refer a.type.namedType)
    refine ⟨remembers.trans referred, fun name v found => ?_⟩
    rw [Table.get?_insert] at found
    split at found
    · obtain rfl := Option.some.inj found
      exact ⟨inOrder_takeIn _ known (.empty setting .argumentDefinition), mem_referenced_refer _⟩
    · exact (orderly name v found).mono referred.toNotes

theorem orderlyArguments_sightArguments (kind : TypeKind) (parent field : String)
    {arguments : List InputValueDefinition}
    (known : ∀ a ∈ arguments, ∀ d ∈ a.directives, d.name ∈ setting.applied.toList)
    {acc : Table String InputValue × Survey} (before : OrderlyArguments setting s acc) :
    OrderlyArguments setting s (arguments.foldl (sightArgument setting kind parent field) acc) :=
  List.foldlRecOn arguments _ before fun _ orderly a listed =>
    orderlyArguments_sightArgument kind parent field (known a listed) orderly

end Survey

namespace Survey.FieldMerge

variable {m : FieldMerge}

theorem remembers_admitted : Remembers m.before m.admitted := .of_writes m.writes_admitted (by decide)

theorem remembers_noted : Remembers m.marked m.noted :=
  (remembers_recordFilter ..).trans (.of_writes m.writes_noted (by decide))

theorem remembers_records : Remembers m.argued.2 m.noted := by
  have marked : Remembers (m.argued.2.refer m.declaration.type.namedType) m.marked :=
    .of_writes (writes_recordExternal ..) (by decide)
  exact ((remembers_refer _).trans marked).trans remembers_noted

theorem remembers_bound : Remembers m.noted m.bound := .of_writes m.writes_bound (by decide)

theorem mem_referenced_bound : m.declaration.type.namedType ∈ m.bound.referenced.toList := by
  have marked : Remembers (m.argued.2.refer m.declaration.type.namedType) m.marked :=
    .of_writes (writes_recordExternal ..) (by decide)
  exact ((marked.trans remembers_noted).trans remembers_bound).referenced _ (mem_referenced_refer _)

theorem filters_bound (has : m.applied.contains Vocabulary.subscriptionFilter = true) :
    m.bound.filters.toList ≠ [] := by
  have filtered : m.filtered.filters.toList ≠ [] := filters_recordFilter has _ _
  have noted : Remembers m.filtered m.noted := .of_writes m.writes_noted (by decide)
  exact (noted.trans remembers_bound).filters filtered

/-- The arguments that the field has are orderly, and those that are declared join them. -/
theorem orderlyArguments_argued
    (known : ∀ d ∈ Overview.appliedOnField m.declaration, d.name ∈ m.setting.applied.toList)
    (old : ∀ field, m.existing? = some field → field.Orderly m.setting m.before) :
    OrderlyArguments m.setting m.admitted m.argued := by
  have onArguments : ∀ a ∈ m.declaration.arguments, ∀ d ∈ a.directives, d.name ∈ m.setting.applied.toList :=
    fun a listed d member => known d (List.mem_append_right _ (List.mem_flatMap.mpr ⟨a, listed, member⟩))
  refine orderlyArguments_sightArguments m.entry.kind m.parent m.declaration.name onArguments ⟨.refl _, ?_⟩
  intro name v found
  cases there : m.existing? with
  | none => simp [there] at found
  | some field =>
    simp only [there, Option.map_some, Option.getD_some] at found
    exact ((old field there).arguments name v found).mono remembers_admitted.toNotes

theorem orderly_field (known : ∀ d ∈ Overview.appliedOnField m.declaration, d.name ∈ m.setting.applied.toList)
    (old : ∀ field, m.existing? = some field → field.Orderly m.setting m.before) :
    m.field.Orderly m.setting m.bound := by
  have onField : ∀ d ∈ m.declaration.directives, d.name ∈ m.setting.applied.toList :=
    fun d member => known d (List.mem_append_left _ member)
  obtain ⟨remembers, arguments⟩ := orderlyArguments_argued known old
  have later := remembers_records.trans (remembers_bound (m := m))
  have directives : m.applied.InOrder m.setting .fieldDefinition :=
    inOrder_takeIn_getD _ onField fun field found => (old field found).directives
  have arguments : ∀ name v, m.argued.1.get? name = some v → v.Orderly m.setting .argumentDefinition m.bound :=
    fun name v found => (arguments name v found).mono later.toNotes
  unfold field
  cases there : m.existing? with
  | some field =>
    -- The first declaration settles the type.
    have referenced := ((remembers_admitted.trans remembers).trans later).referenced _ (old field there).referenced
    exact ⟨directives, referenced, filters_bound, arguments⟩
  | none => exact ⟨directives, mem_referenced_bound, filters_bound, arguments⟩

theorem orderly_after (known : ∀ d ∈ Overview.appliedOnField m.declaration, d.name ∈ m.setting.applied.toList)
    (old : ∀ field, m.existing? = some field → field.Orderly m.setting m.before)
    (before : m.before.Orderly m.setting) : m.after.Orderly m.setting := by
  have argued := (orderlyArguments_argued known old).remembers
  have all := ((remembers_admitted.trans argued).trans remembers_records).trans remembers_bound
  exact (before.of_remembers all).insertField (orderly_field known old) m.parent m.declaration.name

end Survey.FieldMerge

namespace Survey

variable {setting : Setting} {s : Survey}

theorem orderly_mergeField {parent : String} {entry : TypeEntry} {existing? : Option Field} {f : FieldDefinition}
    (known : ∀ d ∈ Overview.appliedOnField f, d.name ∈ setting.applied.toList)
    (old : ∀ field, existing? = some field → field.Orderly setting s) (before : s.Orderly setting) :
    (s.mergeField setting parent entry existing? f).Orderly setting := by
  have orderly := FieldMerge.orderly_after (m := ⟨setting, parent, entry, existing?, f, s⟩) known old before
  rwa [FieldMerge.after_eq] at orderly

theorem orderly_sightEnumValue {parent : String} {isExtension : Bool} {v : EnumValueDefinition}
    (known : ∀ d ∈ v.directives, d.name ∈ setting.applied.toList) (before : s.Orderly setting) :
    (s.sightEnumValue setting parent isExtension v).Orderly setting := by
  unfold sightEnumValue
  split
  · next values shape =>
    obtain ⟨entry, registered, written⟩ := Option.map_eq_some_iff.mp shape
    have old : (Shape.enum values).Orderly setting s := written ▸ (before.types parent entry registered).shape
    dsimp only
    split
    · exact before.of_remembers (.of_writes (writes_report ..) (by decide))
    · have inOrder : (s.takeIn setting .enumValue (coordinates parent v.name)
          (((values.get? v.name).map EnumValue.directives).getD .empty) v.directives).1.accepted.InOrder setting
            .enumValue :=
        inOrder_takeIn_getD _ known (old v.name)
      have taken := writes_takeIn setting s .enumValue (coordinates parent v.name)
        (((values.get? v.name).map EnumValue.directives).getD .empty) v.directives
      have remembered := before.of_remembers (.of_writes taken (by decide))
      refine remembered.reshape (by rintro (_ | _ | _ | _ | _ | _) <;> rfl) fun shape inside => ?_
      cases shape with
      | enum values' =>
        intro name value found
        rw [Table.get?_insert] at found
        split at found
        · exact Option.some.inj found ▸ inOrder
        · exact inside name value found
      | inputObject | interface | object | scalar | union => exact inside
  · exact before

theorem orderly_sightInputValue {parent : String} {isExtension : Bool} {v : InputValueDefinition}
    (known : ∀ d ∈ v.directives, d.name ∈ setting.applied.toList) (before : s.Orderly setting) :
    (s.sightInputValue setting parent isExtension v).Orderly setting := by
  unfold sightInputValue
  split
  · next fields shape =>
    obtain ⟨entry, registered, written⟩ := Option.map_eq_some_iff.mp shape
    have old : (Shape.inputObject fields).Orderly setting s := written ▸ (before.types parent entry registered).shape
    dsimp only
    split
    · exact before.of_remembers (.of_writes (writes_report ..) (by decide))
    · have inOrder : (s.takeIn setting .inputFieldDefinition (coordinates parent v.name)
          (((fields.get? v.name).map InputValue.directives).getD .empty) v.directives).1.accepted.InOrder setting
            .inputFieldDefinition :=
        inOrder_takeIn_getD _ known fun value there => (old v.name value there).directives
      have taken := writes_takeIn setting s .inputFieldDefinition (coordinates parent v.name)
        (((fields.get? v.name).map InputValue.directives).getD .empty) v.directives
      have referred := (Remembers.of_writes taken (by decide)).trans (remembers_refer v.type.namedType)
      refine (before.of_remembers referred).reshape (by rintro (_ | _ | _ | _ | _ | _) <;> rfl) fun shape inside => ?_
      cases shape with
      | inputObject fields' =>
        intro name value found
        rw [Table.get?_insert] at found
        split at found
        · obtain rfl := Option.some.inj found
          -- The first declaration settles the type.
          cases there : fields.get? v.name with
          | none =>
            rw [there] at inOrder
            exact ⟨inOrder, mem_referenced_refer _⟩
          | some value =>
            rw [there] at inOrder referred
            exact ⟨inOrder, referred.referenced _ (old v.name value there).referenced⟩
        · exact inside name value found
      | enum | interface | object | scalar | union => exact inside
  · exact before

theorem orderly_sightSchema {d : SchemaDefinition} (known : ∀ e ∈ d.directives, e.name ∈ setting.applied.toList)
    (before : s.Orderly setting) : (s.sightSchema setting d).Orderly setting := by
  have notes : Notes s (s.sightSchema setting d) := ⟨fun _ => id, id⟩
  exact ⟨inOrder_takeIn "schema" known before.schema,
    fun name entry registered => (before.types name entry registered).mono notes⟩

/-! ## Types -/

/-- What the merge of a type notes. -/
structure NotesType (t : TypeDefinition) (s s' : Survey) : Prop extends Notes s s' where
  schemaDirectives : s'.schemaDirectives = s.schemaDirectives
  members : t.kind = .union → ∀ member ∈ (s.types.listedNames t.name).fresh t.body.listedNames,
    member ∉ Vocabulary.builtInScalars → member ∈ s'.referenced.toList

theorem TypeMerge.notesType (m : TypeMerge) : NotesType m.type m.before m.after := by
  have ahead : Notes m.before m.reported := .of_writes m.writes_ahead (by decide) (by decide)
  have registration : Notes m.joined m.after := .of_writes m.writes_registration (by decide) (by decide)
  have joined : Notes m.reported m.joined := by
    unfold joined
    split
    · exact (remembers_recordMembers ..).toNotes
    · exact (Remembers.refl m.reported).toNotes
  refine ⟨(ahead.trans joined).trans registration, m.writes.same .schemaDirectives (by decide), ?_⟩
  intro union member new noScalar
  have noted : member ∈ m.joined.referenced.toList := by
    rw [TypeMerge.joined, if_pos union]
    exact mem_referenced_recordMembers new noScalar
  exact registration.referenced member noted

/-- A definition or an extension puts its directives behind those that the type has. -/
theorem TypeMerge.inOrder_applied (m : TypeMerge)
    (known : ∀ d ∈ m.type.directives, d.name ∈ m.setting.applied.toList)
    (sameKind : ∀ kind, m.before.types.kind? m.type.name = some kind → kind = m.type.kind)
    (before : m.before.Orderly m.setting) :
    (m.after.types.applied m.type.name).InOrder m.setting m.type.kind.location := by
  rw [m.applied_after, taken, intake_takeInType]
  apply inOrder_takeIn_getD _ known
  intro old found
  have registered : m.before.types.get? m.type.name = some old := found
  have same : old.kind = m.type.kind := sameKind old.kind (by simp [Registry.kind?, registered])
  exact same ▸ (before.types m.type.name old found).directives

/-- What the type lists once more is noted, where it is new. -/
theorem TypeMerge.orderly_shape (m : TypeMerge)
    (sameKind : ∀ kind, m.before.types.kind? m.type.name = some kind → kind = m.type.kind)
    (before : m.before.Orderly m.setting) : m.entry.shape.Orderly m.setting m.after := by
  -- The shape before the merge is that of the entry, or empty where the type is new.
  have old : ((m.old?.map TypeEntry.shape).getD (.ofKind m.type.kind)).Orderly m.setting m.after := by
    cases found : m.old? with
    | none => exact Shape.orderly_ofKind m.type.kind
    | some old => exact ((before.types m.type.name old found).mono m.notesType.toNotes).shape
  rw [m.shape_entry]
  apply Shape.Orderly.list (kind_shape sameKind) old
  intro union member new noScalar
  refine m.notesType.members union member ?_ noScalar
  cases found : m.before.types.get? m.type.name with
  | none =>
    have nothing : (Shape.ofKind m.type.kind).listedNames = .empty := by cases m.type.kind <;> rfl
    simpa [Registry.listedNames, TypeMerge.old?, found, nothing] using new
  | some old => simpa [Registry.listedNames, TypeMerge.old?, found] using new

theorem TypeMerge.orderly_after (m : TypeMerge)
    (known : ∀ d ∈ m.type.directives, d.name ∈ m.setting.applied.toList)
    (sameKind : ∀ kind, m.before.types.kind? m.type.name = some kind → kind = m.type.kind)
    (before : m.before.Orderly m.setting) : m.after.Orderly m.setting := by
  refine ⟨m.notesType.schemaDirectives ▸ before.schema, fun name entry registered => ?_⟩
  rw [m.types_after, Table.get?_insert] at registered
  split at registered
  · obtain rfl := Option.some.inj registered
    refine ⟨?_, m.orderly_shape sameKind before⟩
    have inOrder := m.inOrder_applied known sameKind before
    rw [m.applied_after, ← m.directives_entry] at inOrder
    rw [TypeEntry.kind, m.shape_entry, Shape.kind_list, TypeMerge.old?, kind_shape sameKind]
    exact inOrder
  · exact (before.types name entry registered).mono m.notesType.toNotes

theorem orderly_merge {isExtension : Bool} {t : TypeDefinition}
    (known : ∀ d ∈ t.directives, d.name ∈ setting.applied.toList)
    (sameKind : ∀ kind, s.types.kind? t.name = some kind → kind = t.kind) (before : s.Orderly setting) :
    (s.merge setting isExtension t).Orderly setting :=
  TypeMerge.orderly_after ⟨setting, isExtension, t, s⟩ known sameKind before

/-! ## The whole survey -/

end Survey

/-- The directives that a look meets. -/
def Look.applied : Look → List Directive
  | .schema d => d.directives
  | .type _ t => t.directives
  | .field _ _ f => Overview.appliedOnField f
  | .enumValue _ _ v => v.directives
  | .inputValue _ _ v => v.directives

theorem Look.applied_subset {x : Statement} {l : Look} (looked : l ∈ ofStatement x) {d : Directive}
    (member : d ∈ l.applied) : d ∈ Overview.appliedIn x := by
  -- A look at a type meets its own directives, one inside it those of the child.
  have ofType (isExtension : Bool) (t : TypeDefinition) (looked : l ∈ ofType isExtension t) :
      d ∈ Overview.appliedOnType t := by
    unfold Look.ofType at looked
    split at looked
    · exact absurd looked List.not_mem_nil
    rcases List.mem_cons.mp looked with rfl | inside
    · exact List.mem_append_left _ member
    refine List.mem_append_right _ ?_
    unfold Look.inside at inside
    cases body : t.body with
    | enum | inputObject | interface | object =>
      simp only [body] at inside ⊢
      obtain ⟨child, listed, rfl⟩ := List.mem_map.mp inside
      exact List.mem_flatMap.mpr ⟨child, listed, member⟩
    | scalar | union =>
      simp only [body] at inside
      exact absurd inside List.not_mem_nil
  rcases x with (_ | d' | t) | d' | t
  case define.directive => exact absurd looked List.not_mem_nil
  case define.schema | extendSchema =>
    obtain rfl := List.mem_singleton.mp looked
    exact member
  case define.type => exact ofType false t looked
  case extendType => exact ofType true t looked

namespace Survey

variable {setting : Setting} {s : Survey}

theorem orderly_look {l : Look} (known : ∀ d ∈ l.applied, d.name ∈ setting.applied.toList)
    (before : s.Orderly setting) : (s.look setting l).Orderly setting := by
  have looked := looked_look setting s l
  generalize after : s.look setting l = s' at looked ⊢
  cases looked with
  | retained noType noField =>
    -- What is kept of schemas and values is not seen of their types, so each of them is looked at by itself.
    subst after
    cases l with
    | schema d => exact orderly_sightSchema known before
    | enumValue isExtension t v => exact orderly_sightEnumValue known before
    | inputValue isExtension t v => exact orderly_sightInputValue known before
    | type => exact absurd rfl (noType _ _)
    | field => exact absurd rfl (noField _ _ _)
  | type sameKind => exact orderly_merge known sameKind before
  | conflict | duplicate => exact before.of_remembers (.of_writes (writes_report ..) (by decide))
  | passed => exact before
  | field => exact orderly_mergeField known (fun _ => before.field?) before

/-- A survey is orderly whatever it has met, as long as the setting knows the directives of the text. -/
theorem orderly_walk {statements : List Statement} {errors : List Error}
    (known : ∀ x ∈ statements, ∀ d ∈ Overview.appliedIn x, d.name ∈ setting.applied.toList) :
    (walk setting errors statements).Orderly setting :=
  walk_recOn (orderly_start setting errors) fun _ x member _ looked orderly =>
    orderly_look (fun d applied => known x member d (Look.applied_subset looked applied)) orderly

end Survey

end Federation
