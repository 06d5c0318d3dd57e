import Federation.Proofs.Registry.Growth

/-!
# What a survey without errors knows

After every look the registry, the requirements and the concrete types agree with all that was looked at so
far: each registered field has one heir, each object is concrete for the interfaces that it implements, and
the requirements are those that were declared.
-/

namespace Federation

open Schema

/-- The fields of a registered object or interface. -/
def Registry.fields (types : Registry) (typeName : String) : Table String Field :=
  ((types.composite? typeName).map Composite.fields).getD .empty

theorem Registry.field?_eq (types : Registry) (typeName name : String) :
    types.field? typeName name = (types.fields typeName).get? name := by
  unfold field? fields
  cases types.composite? typeName <;> rfl

theorem Registry.fields_eq {types : Registry} {typeName : String} {entry : TypeEntry} {c : Composite}
    (registered : types.get? typeName = some entry) (composite : entry.composite? = some c) :
    types.fields typeName = c.fields := by
  simp [fields, composite?, registered, composite]

theorem Survey.Retains.fields {a b : Survey} (retained : Retains a b) (typeName : String) :
    b.types.fields typeName = a.types.fields typeName := by
  rw [Registry.fields, retained.composite?, Registry.fields]

/-- A field that is written to a type is found there, and nothing else changes. -/
theorem Registry.fields_insertField {types : Registry} {parent : String}
    (composite : (types.composite? parent).isSome = true) (name : String) (field : Field) (typeName : String) :
    Registry.fields (Table.adjust types parent fun entry =>
        { entry with
          shape := entry.shape.mapComposite fun c => { c with fields := c.fields.insert name field } }) typeName =
      if typeName = parent then (types.fields parent).insert name field else types.fields typeName := by
  unfold Registry.fields Registry.composite? at *
  rw [Table.get?_adjust]
  by_cases same : typeName = parent
  · subst same
    cases found : types.get? typeName with
    | none => simp [found] at composite
    | some entry =>
      obtain ⟨_, _, _, _, shape⟩ := entry
      simp only [found, Option.bind_some, TypeEntry.composite?] at composite
      cases shape <;> simp [Shape.composite?, TypeEntry.composite?, Shape.mapComposite] at composite ⊢
  · simp [same]

theorem Registry.field?_insertField {types : Registry} {parent : String}
    (composite : (types.composite? parent).isSome = true) (name : String) (field : Field) (typeName other : String) :
    Registry.field? (Table.adjust types parent fun entry =>
        { entry with
          shape := entry.shape.mapComposite fun c => { c with fields := c.fields.insert name field } }) typeName other =
      if typeName = parent ∧ other = name then some field else types.field? typeName other := by
  rw [Registry.field?_eq, Registry.field?_eq, Registry.fields_insertField composite]
  by_cases same : typeName = parent
  · subst same
    by_cases here : other = name <;> simp [here]
  · simp [same]

namespace Survey

/-! ## What is seen after a type is merged -/

section MergesType

variable {setting : Setting} {t : TypeDefinition} {s s' : Survey} (merged : MergesType setting t s s')
  (sameKind : ∀ kind, s.types.kind? t.name = some kind → kind = t.kind)

include sameKind in
theorem kind_shape : (((s.types.get? t.name).map TypeEntry.shape).getD (.ofKind t.kind)).kind = t.kind := by
  cases found : s.types.get? t.name with
  | none => exact Shape.kind_ofKind t.kind
  | some entry => exact sameKind entry.kind (by simp [Registry.kind?, found])

include merged sameKind in
theorem kind?_of_mergesType (typeName : String) :
    s'.types.kind? typeName = if typeName = t.name then some t.kind else s.types.kind? typeName := by
  obtain ⟨entry, types, shape, -⟩ := merged.types
  unfold Registry.kind?
  rw [types, Table.get?_insert]
  split
  · simp [TypeEntry.kind, shape, kind_shape sameKind]
  · rfl

omit sameKind in
include merged in
theorem fields_of_mergesType (typeName : String) : s'.types.fields typeName = s.types.fields typeName := by
  obtain ⟨entry, types, shape, -⟩ := merged.types
  unfold Registry.fields Registry.composite?
  rw [types, Table.get?_insert]
  split
  · next same =>
    subst same
    cases found : s.types.get? t.name with
    | none =>
      simp only [found, Option.map_none, Option.getD_none] at shape
      simp only [Option.bind_some, TypeEntry.composite?, shape, Shape.composite?_list, Option.bind_none]
      cases t.kind <;> rfl
    | some old =>
      simp only [found, Option.map_some, Option.getD_some] at shape
      simp only [Option.bind_some, TypeEntry.composite?, shape, Shape.composite?_list]
      cases old.shape.composite? <;> rfl
  · rfl

omit sameKind in
include merged in
theorem field?_of_mergesType (typeName name : String) :
    s'.types.field? typeName name = s.types.field? typeName name := by
  rw [Registry.field?_eq, Registry.field?_eq, fields_of_mergesType merged]

include merged sameKind in
theorem listedNames_of_mergesType (typeName : String) :
    s'.types.listedNames typeName =
      if typeName = t.name then (s.types.listedNames typeName).insertAll t.body.listedNames
      else s.types.listedNames typeName := by
  obtain ⟨entry, types, shape, -⟩ := merged.types
  have kind := kind_shape sameKind
  unfold Registry.listedNames
  rw [types, Table.get?_insert]
  split
  · next same =>
    subst same
    simp only [Option.map_some, Option.getD_some, shape]
    rw [Shape.listedNames_list _ _ kind]
    cases found : s.types.get? t.name with
    | none => cases t.kind <;> simp [Shape.ofKind, Shape.listedNames]
    | some old => simp
  · rfl

include merged in
theorem applied_of_mergesType (clean : s'.errors = []) (fresh : s.repeats = .empty) (typeName name : String)
    (authorizes : name ∈ [Vocabulary.authenticated, Vocabulary.requiresScopes]) :
    (s'.types.applied typeName).named name =
      (s.types.applied typeName).named name ++
        if typeName = t.name ∧ Intake.goesToLedger t.kind.location = false then
          t.directives.filter (·.name = name)
        else [] := by
  obtain ⟨entry, types, -, applied⟩ := merged.types
  have given := applied clean fresh name authorizes
  have here : s'.types.applied typeName =
      if typeName = t.name then entry.directives else s.types.applied typeName := by
    unfold Registry.applied
    rw [types, Table.get?_insert]
    split <;> rfl
  rw [here]
  split
  · next same =>
    subst same
    rw [given]
    cases Intake.goesToLedger t.kind.location <;> simp
  · next other => simp [other]

end MergesType

/-! ## What is seen after a field is merged -/

theorem retains_of_mergesField {setting : Setting} {parent : String} {existing? : Option Field}
    {f : FieldDefinition} {s s' : Survey} (merged : MergesField setting parent existing? f s s') :
    (∀ typeName, s'.types.kind? typeName = s.types.kind? typeName) ∧
    (∀ typeName, s'.types.listedNames typeName = s.types.listedNames typeName) ∧
    (∀ typeName, s'.types.applied typeName = s.types.applied typeName) := by
  obtain ⟨field, -, -, types⟩ := merged.types
  unfold Registry.kind? Registry.listedNames Registry.applied
  rw [types]
  simp only [Table.get?_adjust]
  refine ⟨fun typeName => ?_, fun typeName => ?_, fun typeName => ?_⟩
  all_goals
    cases s.types.get? typeName with
    | none => split <;> rfl
    | some entry =>
      obtain ⟨_, _, _, _, shape⟩ := entry
      split
      · cases shape <;> rfl
      · rfl

theorem fields_of_mergesField {setting : Setting} {parent : String} {existing? : Option Field}
    {f : FieldDefinition} {s s' : Survey} (merged : MergesField setting parent existing? f s s')
    (composite : (s.types.composite? parent).isSome = true) :
    ∃ field : Field, field.type = (existing?.map Field.type).getD f.type ∧
      field.directives = (s.takeIn setting .fieldDefinition (coordinates parent f.name)
        ((existing?.map Field.directives).getD .empty) f.directives).1.accepted ∧
      ∀ typeName, s'.types.fields typeName =
        if typeName = parent then (s.types.fields parent).insert f.name field else s.types.fields typeName := by
  obtain ⟨field, type, directives, types⟩ := merged.types
  refine ⟨field, type, directives, fun typeName => ?_⟩
  rw [types, Registry.fields_insertField composite]

theorem field?_of_mergesField {setting : Setting} {parent : String} {existing? : Option Field}
    {f : FieldDefinition} {s s' : Survey} (merged : MergesField setting parent existing? f s s')
    (composite : (s.types.composite? parent).isSome = true) :
    ∃ field : Field, field.type = (existing?.map Field.type).getD f.type ∧
      ∀ typeName name, s'.types.field? typeName name =
        if typeName = parent ∧ name = f.name then some field else s.types.field? typeName name := by
  obtain ⟨field, type, -, types⟩ := merged.types
  refine ⟨field, type, fun typeName name => ?_⟩
  rw [types, Registry.field?_insertField composite]

/-- One more declaration of a field writes what the field is then, and nothing else. -/
theorem field?_mergeField (setting : Setting) {s : Survey} {parent : String}
    (known : (s.types.composite? parent).isSome = true) (entry : TypeEntry) (existing? : Option Field)
    (f : FieldDefinition) (typeName name : String) :
    (s.mergeField setting parent entry existing? f).types.field? typeName name =
      if typeName = parent ∧ name = f.name then
        some (Field.declared setting parent (entry.directives.contains Vocabulary.external) existing? f)
      else s.types.field? typeName name := by
  rw [types_mergeField]
  exact Registry.field?_insertField known f.name _ typeName name

end Survey

namespace Look

/-- Whether a field is one that a federation serves by itself, so that it is not looked at any further. -/
def isServed (setting : Setting) (t : TypeDefinition) (f : FieldDefinition) : Bool :=
  (setting.operation? t.kind t.name).isSome && Survey.isReservedField f.name

/-- The hosts of requirements that a look finds, with the directives on them. -/
def declarations (setting : Setting) : Look → List (Authorization.Host × List Directive)
  | .type _ t => if t.kind.isLeaf then [(.leaf t.name, t.directives)] else []
  | .field _ t f =>
    if isServed setting t f then []
    else [(.field t.name (setting.roots.canonicalName t.name) f.name, f.directives)]
  | .schema _ | .enumValue .. | .inputValue .. => []

/-- The directives that a look finds on a type. -/
def appliedTo (typeName : String) : Look → List Directive
  | .type _ t => if typeName = t.name then t.directives else []
  | .schema _ | .field .. | .enumValue .. | .inputValue .. => []

/-- The type with which a look finds a field. -/
def sightedType (setting : Setting) (typeName name : String) : Look → List TypeRef
  | .field _ t f => if t.name = typeName ∧ f.name = name ∧ isServed setting t f = false then [f.type] else []
  | .schema _ | .type .. | .enumValue .. | .inputValue .. => []

/-- Fields are looked at after the type that they stand in. -/
def Follows (past : List Look) : Look → Prop
  | .field isExtension t f => .type isExtension t ∈ past ∧ f ∈ t.fields
  | .schema _ | .type .. | .enumValue .. | .inputValue .. => True

/-- Each look of a list follows what was looked at before it. -/
def Ordered : List Look → List Look → Prop
  | _, [] => True
  | past, l :: rest => l.Follows past ∧ Ordered (past ++ [l]) rest

theorem mem_append_one {past : List Look} {l l' : Look} : l' ∈ past ++ [l] ↔ l' ∈ past ∨ l' = l := by
  rw [List.mem_append, List.mem_singleton]

/-! What holds of the types, or of the fields, that were looked at holds after one more look. -/

section Append

variable {past : List Look} {l : Look} {isExtension : Bool} {t : TypeDefinition} {f : FieldDefinition}

theorem type_mem_append (noType : ∀ isExtension t, l ≠ .type isExtension t) :
    .type isExtension t ∈ past ++ [l] ↔ .type isExtension t ∈ past := by
  rw [mem_append_one]
  exact or_iff_left (Ne.symm (noType isExtension t))

theorem field_mem_append (noField : ∀ isExtension t f, l ≠ .field isExtension t f) :
    .field isExtension t f ∈ past ++ [l] ↔ .field isExtension t f ∈ past := by
  rw [mem_append_one]
  exact or_iff_left (Ne.symm (noField isExtension t f))

/-- Of a field that is passed by nothing new is known. -/
theorem field_of_passed {setting : Setting}
    (passed : ∀ isExtension t f, l = .field isExtension t f → isServed setting t f = true)
    (member : .field isExtension t f ∈ past ++ [l]) (unserved : isServed setting t f = false) :
    .field isExtension t f ∈ past := by
  refine (mem_append_one.mp member).resolve_right fun same => ?_
  exact absurd ((passed isExtension t f same.symm).symm.trans unserved) Bool.noConfusion

theorem forall_type_append {P : TypeDefinition → Prop} :
    (∀ isExtension' t', .type isExtension' t' ∈ past ++ [.type isExtension t] → P t') ↔
      (∀ isExtension' t', .type isExtension' t' ∈ past → P t') ∧ P t := by
  simp [or_imp, forall_and]

theorem exists_type_append (past : List Look) (isExtension : Bool) (t : TypeDefinition) (P : TypeDefinition → Prop) :
    (∃ isExtension' t', .type isExtension' t' ∈ past ++ [.type isExtension t] ∧ P t') ↔
      (∃ isExtension' t', .type isExtension' t' ∈ past ∧ P t') ∨ P t := by
  simp [or_and_right, exists_or, and_assoc]

theorem forall_field_append {P : TypeDefinition → FieldDefinition → Prop} :
    (∀ isExtension' t' f', .field isExtension' t' f' ∈ past ++ [.field isExtension t f] → P t' f') ↔
      (∀ isExtension' t' f', .field isExtension' t' f' ∈ past → P t' f') ∧ P t f := by
  simp only [mem_append_one, Look.field.injEq]
  constructor
  · exact fun all => ⟨fun e t' f' member => all e t' f' (.inl member), all isExtension t f (.inr ⟨rfl, rfl, rfl⟩)⟩
  · rintro ⟨older, here⟩ e t' f' (member | ⟨-, rfl, rfl⟩)
    · exact older e t' f' member
    · exact here

theorem exists_field_append (past : List Look) (isExtension : Bool) (t : TypeDefinition) (f : FieldDefinition)
    (P : TypeDefinition → FieldDefinition → Prop) :
    (∃ isExtension' t' f', .field isExtension' t' f' ∈ past ++ [.field isExtension t f] ∧ P t' f') ↔
      (∃ isExtension' t' f', .field isExtension' t' f' ∈ past ∧ P t' f') ∨ P t f := by
  simp [or_and_right, exists_or, and_assoc]

end Append

theorem ordered_append {past first rest : List Look} (before : Ordered past first)
    (after : Ordered (past ++ first) rest) : Ordered past (first ++ rest) := by
  induction first generalizing past with
  | nil => simpa using after
  | cons l first ih => exact ⟨before.1, ih before.2 (by simpa using after)⟩

theorem ordered_map {α : Type} (look : α → Look) (Holds : List Look → Prop)
    (kept : ∀ past l, Holds past → Holds (past ++ [l])) (xs : List α)
    (one : ∀ x ∈ xs, ∀ past, Holds past → (look x).Follows past) {past : List Look} (start : Holds past) :
    Ordered past (xs.map look) := by
  induction xs generalizing past with
  | nil => trivial
  | cons x xs ih =>
    exact ⟨one x List.mem_cons_self past start,
      ih (fun y member => one y (List.mem_cons_of_mem x member)) (kept past (look x) start)⟩

theorem ordered_ofType (past : List Look) (isExtension : Bool) (t : TypeDefinition) :
    Ordered past (ofType isExtension t) := by
  unfold ofType
  split
  · trivial
  -- A type is looked at before what is inside it.
  · have seen : Look.type isExtension t ∈ past ++ [.type isExtension t] :=
      List.mem_append_right _ List.mem_cons_self
    have kept : ∀ (past : List Look) (l : Look), Look.type isExtension t ∈ past →
        Look.type isExtension t ∈ past ++ [l] := fun past l member => List.mem_append_left _ member
    refine ⟨trivial, ?_⟩
    unfold inside
    obtain ⟨name, description, directives, body⟩ := t
    cases body with
    | scalar | union => trivial
    | enum values =>
      exact ordered_map (.enumValue _ _) (fun _ => True) (fun _ _ _ => trivial) values
        (fun _ _ _ _ => trivial) trivial
    | inputObject fields =>
      exact ordered_map (.inputValue _ _) (fun _ => True) (fun _ _ _ => trivial) fields
        (fun _ _ _ _ => trivial) trivial
    | interface implements fields | object implements fields =>
      exact ordered_map (.field _ _) _ kept fields (fun f member past looked => ⟨looked, member⟩) seen

theorem ordered_all (past : List Look) (statements : List Statement) : Ordered past (all statements) := by
  induction statements generalizing past with
  | nil => trivial
  | cons x rest ih =>
    refine ordered_append ?_ (ih _)
    rcases x with (_ | _ | t) | _ | t
    case define.directive => trivial
    case define.type => exact ordered_ofType past false t
    case extendType => exact ordered_ofType past true t
    all_goals exact ⟨trivial, trivial⟩

end Look

namespace Survey

/-- The agreement between what was looked at and what is known. -/
structure Coherent (setting : Setting) (past : List Look) (s : Survey) : Prop where
  registered : ∀ isExtension t, .type isExtension t ∈ past → s.types.kind? t.name = some t.kind
  defined : ∀ typeName, (s.types.kind? typeName).isSome = true →
    ∃ isExtension t, .type isExtension t ∈ past ∧ t.name = typeName
  listed : ∀ typeName name, name ∈ (s.types.listedNames typeName).toList ↔
    ∃ isExtension t, .type isExtension t ∈ past ∧ t.name = typeName ∧ name ∈ t.body.listedNames
  /-- The authorization directives on an object or interface are those of all its definitions. -/
  applied : ∀ typeName kind, s.types.kind? typeName = some kind → Intake.goesToLedger kind.location = false →
    ∀ name ∈ [Vocabulary.authenticated, Vocabulary.requiresScopes],
      (s.types.applied typeName).named name =
        (past.flatMap (Look.appliedTo typeName)).filter (·.name = name)
  fields : ∀ typeName name, (s.types.field? typeName name).isSome = true ↔
    ∃ isExtension t f, .field isExtension t f ∈ past ∧ t.name = typeName ∧ f.name = name ∧
      Look.isServed setting t f = false
  /-- Of several types of one field the first counts. -/
  fieldType : ∀ typeName name, (s.types.field? typeName name).map Field.type =
    (past.flatMap (Look.sightedType setting typeName name)).head?
  heirs : ∀ typeName name,
    s.ledger.heirs.filter (fun heir => heir.parent = typeName ∧ heir.field = name) =
      (s.types.field? typeName name).toList.map fun field =>
        ⟨setting.roots.canonicalName typeName, typeName, name, field.type.namedType⟩
  concrete : ∀ abstractName name, name ∈ (s.concrete.of abstractName).toList ↔
    (s.types.kind? abstractName = some .union ∧ name ∈ (s.types.listedNames abstractName).toList) ∨
      abstractName ∈ s.types.implemented name
  declared : s.ledger =
    { Authorization.Ledger.empty.declareAll setting.maxOrScopes
        (past.flatMap (Look.declarations setting)) with heirs := s.ledger.heirs }
  allowedOnType : ∀ isExtension t, .type isExtension t ∈ past →
    ∀ d ∈ t.directives, setting.Allows t.kind.location d
  allowedOnField : ∀ isExtension t f, .field isExtension t f ∈ past →
    Look.isServed setting t f = false → ∀ d ∈ f.directives, setting.Allows .fieldDefinition d

theorem declareAll_append_one (limit : Nat) (ds : List (Authorization.Host × List Directive))
    (d : Authorization.Host × List Directive) (heirs later : List Authorization.Heir)
    (l : Authorization.Ledger)
    (before : l = { Authorization.Ledger.empty.declareAll limit ds with heirs }) :
    { l.declare limit d.1 d.2 with heirs := later } =
      { Authorization.Ledger.empty.declareAll limit (ds ++ [d]) with heirs := later } := by
  -- Heirs and declarations do not meet in the ledger.
  have same : ∀ (a : Authorization.Ledger),
      ({ ({ a with heirs } : Authorization.Ledger).declare limit d.1 d.2 with heirs := later } :
        Authorization.Ledger) = { a.declare limit d.1 d.2 with heirs := later } := by
    intro a
    rw [Authorization.Ledger.declare_eq, Authorization.Ledger.declare_eq]
    cases Authorization.Declared.on limit d.2 with
    | nothing => rfl
    | overLimit => rfl
    | requirement r => cases d.1 <;> rfl
  rw [before, same]
  unfold Authorization.Ledger.declareAll
  rw [List.foldl_append]
  rfl

theorem coherent_start (setting : Setting) (errors : List Error) : Coherent setting [] (start errors) where
  registered := nofun
  defined _ known := absurd known Bool.noConfusion
  listed typeName name := by simp [start, Registry.listedNames]
  applied _ _ _ _ _ _ := rfl
  fields typeName name := by simp [start, Registry.field?, Registry.composite?]
  fieldType typeName name := rfl
  heirs typeName name := rfl
  concrete abstractName name := by
    simp [start, Registry.implemented, Registry.kind?]
  declared := rfl
  allowedOnType := nofun
  allowedOnField := nofun

theorem implemented_congr {a b : Registry} (kind? : ∀ typeName, b.kind? typeName = a.kind? typeName)
    (listedNames : ∀ typeName, b.listedNames typeName = a.listedNames typeName) (typeName : String) :
    b.implemented typeName = a.implemented typeName := by
  unfold Registry.implemented
  rw [kind?, listedNames]

/-- A look that changes nothing of types and requirements, and finds nothing of the kind. -/
theorem coherent_of_retains {setting : Setting} {past : List Look} {s s' : Survey} {l : Look}
    (retained : Retains s s') (noType : ∀ isExtension t, l ≠ .type isExtension t)
    (noField : ∀ isExtension t f, l = .field isExtension t f → Look.isServed setting t f = true)
    (before : Coherent setting past s) : Coherent setting (past ++ [l]) s' := by
  -- What is looked at declares nothing, so that each list of what was seen stays as it is.
  have nothing : l.declarations setting = [] ∧ (∀ typeName, l.appliedTo typeName = []) ∧
      ∀ typeName name, l.sightedType setting typeName name = [] := by
    cases l with
    | type isExtension t => exact absurd rfl (noType isExtension t)
    | field isExtension t f =>
      simp [Look.declarations, Look.appliedTo, Look.sightedType, noField isExtension t f rfl]
    | schema | enumValue | inputValue => exact ⟨rfl, fun _ => rfl, fun _ _ => rfl⟩
  have older : ∀ isExtension t, .type isExtension t ∈ past ++ [l] ↔ .type isExtension t ∈ past :=
    fun isExtension t => Look.type_mem_append noType
  have field? : ∀ typeName name, s'.types.field? typeName name = s.types.field? typeName name := by
    intro typeName name
    unfold Registry.field?
    rw [retained.composite?]
  constructor
  case registered => simpa only [older, retained.kind?] using before.registered
  case defined => simpa only [older, retained.kind?] using before.defined
  case listed => simpa only [older, retained.listedNames] using before.listed
  case allowedOnType => simpa only [older] using before.allowedOnType
  case applied =>
    intro typeName kind registered composite name authorizes
    rw [retained.applied, before.applied typeName kind (retained.kind? typeName ▸ registered) composite name
      authorizes, List.flatMap_append]
    simp [nothing.2.1]
  case fields =>
    intro typeName name
    rw [field?, before.fields]
    constructor
    · rintro ⟨isExtension, t, f, member, rest⟩
      exact ⟨isExtension, t, f, List.mem_append_left _ member, rest⟩
    · rintro ⟨isExtension, t, f, member, type, field, looked⟩
      exact ⟨isExtension, t, f, Look.field_of_passed noField member looked, type, field, looked⟩
  case fieldType =>
    intro typeName name
    rw [field?, before.fieldType, List.flatMap_append]
    simp [nothing.2.2]
  case heirs =>
    intro typeName name
    rw [retained.ledger, field?]
    exact before.heirs typeName name
  case concrete =>
    intro abstractName name
    rw [retained.concrete, retained.kind?, retained.listedNames,
      implemented_congr retained.kind? retained.listedNames]
    exact before.concrete abstractName name
  case declared =>
    rw [retained.ledger, List.flatMap_append]
    simpa [nothing.1] using before.declared
  case allowedOnField =>
    exact fun isExtension t f member looked =>
      before.allowedOnField isExtension t f (Look.field_of_passed noField member looked) looked

theorem mem_implemented {types : Registry} {typeName interfaceName : String} :
    interfaceName ∈ types.implemented typeName ↔
      types.kind? typeName = some .object ∧ interfaceName ∈ (types.listedNames typeName).toList := by
  unfold Registry.implemented
  split <;> simp_all

theorem kind?_of_mem_listedNames {types : Registry} {typeName name : String}
    (member : name ∈ (types.listedNames typeName).toList) : ∃ kind, types.kind? typeName = some kind := by
  unfold Registry.listedNames at member
  unfold Registry.kind?
  cases found : types.get? typeName with
  | none => simp [found] at member
  | some entry => exact ⟨entry.kind, rfl⟩

theorem kind?_kept {setting : Setting} {t : TypeDefinition} {s s' : Survey} (merged : MergesType setting t s s')
    (sameKind : ∀ kind, s.types.kind? t.name = some kind → kind = t.kind) {typeName : String} {kind : TypeKind}
    (known : s.types.kind? typeName = some kind) : s'.types.kind? typeName = some kind := by
  rw [kind?_of_mergesType merged sameKind]
  split
  · next same => rw [sameKind kind (same ▸ known)]
  · exact known

theorem listedNames_kept {setting : Setting} {t : TypeDefinition} {s s' : Survey} (merged : MergesType setting t s s')
    (sameKind : ∀ kind, s.types.kind? t.name = some kind → kind = t.kind) {typeName name : String}
    (member : name ∈ (s.types.listedNames typeName).toList) : name ∈ (s'.types.listedNames typeName).toList := by
  rw [listedNames_of_mergesType merged sameKind]
  split
  · exact OrderedSet.mem_insertAll.mpr (.inl member)
  · exact member

/-- A member of a union was listed before, or it is one of those that a definition of it adds. -/
theorem member_of_mergesType {setting : Setting} {t : TypeDefinition} {s s' : Survey}
    (merged : MergesType setting t s s') (sameKind : ∀ kind, s.types.kind? t.name = some kind → kind = t.kind)
    {unionName name : String} (union : s'.types.kind? unionName = some .union)
    (member : name ∈ (s'.types.listedNames unionName).toList) :
    (s.types.kind? unionName = some .union ∧ name ∈ (s.types.listedNames unionName).toList) ∨
      (t.kind = .union ∧ unionName = t.name ∧ name ∈ (s.types.listedNames t.name).fresh t.body.listedNames) := by
  rw [kind?_of_mergesType merged sameKind] at union
  rw [listedNames_of_mergesType merged sameKind] at member
  split at union
  · next same =>
    subst same
    rw [if_pos rfl, OrderedSet.mem_insertAll] at member
    by_cases listed : name ∈ (s.types.listedNames t.name).toList
    · obtain ⟨kind, known⟩ := kind?_of_mem_listedNames listed
      exact .inl ⟨by rw [known, sameKind kind known]; exact union, listed⟩
    · have new := member.resolve_left listed
      exact .inr ⟨Option.some.inj union, rfl, OrderedSet.mem_fresh.mpr ⟨new, listed⟩⟩
  · next other =>
    rw [if_neg other] at member
    exact .inl ⟨union, member⟩

/-- Concrete types after a type is merged: unions have their members and interfaces their objects. -/
theorem concrete_of_mergesType {setting : Setting} {t : TypeDefinition} {s s' : Survey}
    (merged : MergesType setting t s s') (sameKind : ∀ kind, s.types.kind? t.name = some kind → kind = t.kind)
    (before : ∀ abstractName name, name ∈ (s.concrete.of abstractName).toList ↔
      (s.types.kind? abstractName = some .union ∧ name ∈ (s.types.listedNames abstractName).toList) ∨
        abstractName ∈ s.types.implemented name) (abstractName name : String) :
    name ∈ (s'.concrete.of abstractName).toList ↔
      (s'.types.kind? abstractName = some .union ∧ name ∈ (s'.types.listedNames abstractName).toList) ∨
        abstractName ∈ s'.types.implemented name := by
  rw [merged.concrete, before]
  constructor
  -- What was concrete before stays so; the rest are new members of a union and an object under its interfaces.
  · rintro ((⟨union, member⟩ | implemented) | ⟨union, rfl, fresh⟩ | ⟨rfl, implemented⟩)
    · exact .inl ⟨kind?_kept merged sameKind union, listedNames_kept merged sameKind member⟩
    · obtain ⟨object, listed⟩ := mem_implemented.mp implemented
      exact .inr (mem_implemented.mpr
        ⟨kind?_kept merged sameKind object, listedNames_kept merged sameKind listed⟩)
    · rw [kind?_of_mergesType merged sameKind, listedNames_of_mergesType merged sameKind, if_pos rfl, if_pos rfl]
      exact .inl ⟨congrArg some union, OrderedSet.mem_insertAll.mpr (.inr (OrderedSet.mem_fresh.mp fresh).1)⟩
    · exact .inr implemented
  · rintro (⟨union, member⟩ | implemented)
    · exact (member_of_mergesType merged sameKind union member).imp .inl .inl
    · by_cases same : name = t.name
      · exact .inr (.inr ⟨same, same ▸ implemented⟩)
      · obtain ⟨object, listed⟩ := mem_implemented.mp implemented
        rw [kind?_of_mergesType merged sameKind, if_neg same] at object
        rw [listedNames_of_mergesType merged sameKind, if_neg same] at listed
        exact .inl (.inr (mem_implemented.mpr ⟨object, listed⟩))

/-- What is known of the directives on a type holds before the type is registered too. -/
theorem Coherent.applied_of_kind {setting : Setting} {past : List Look} {s : Survey}
    (before : Coherent setting past s) {typeName : String} {kind : TypeKind}
    (same : ∀ old, s.types.kind? typeName = some old → old = kind)
    (composite : Intake.goesToLedger kind.location = false) (name : String)
    (authorizes : name ∈ [Vocabulary.authenticated, Vocabulary.requiresScopes]) :
    (s.types.applied typeName).named name =
      (past.flatMap (Look.appliedTo typeName)).filter (·.name = name) := by
  cases known : s.types.kind? typeName with
  | some old => exact before.applied typeName old known (same old known ▸ composite) name authorizes
  | none =>
    -- A type that was never looked at has no directives on either side.
    have unseen : past.flatMap (Look.appliedTo typeName) = [] := by
      refine List.flatMap_eq_nil_iff.mpr fun l member => ?_
      cases l with
      | type isExtension t =>
        refine if_neg fun same => ?_
        rw [same, before.registered isExtension t member] at known
        exact absurd known (Option.some_ne_none t.kind)
      | schema | field | enumValue | inputValue => rfl
    have unregistered : s.types.get? typeName = none := by
      simpa [Registry.kind?] using known
    simp [unseen, Registry.applied, unregistered]

section MergedType

variable {setting : Setting} {past : List Look} {s s' : Survey} {isExtension : Bool} {t : TypeDefinition}
  (merged : MergesType setting t s s') (sameKind : ∀ kind, s.types.kind? t.name = some kind → kind = t.kind)
  (clean : s'.errors = []) (fresh : s.repeats = .empty) (before : Coherent setting past s)

include merged sameKind before in
/-- An older definition has the same kind, or the look would have reported it. -/
theorem registered_of_mergesType : ∀ isExtension' t', .type isExtension' t' ∈ past ++ [.type isExtension t] →
    s'.types.kind? t'.name = some t'.kind := by
  have kind? := kind?_of_mergesType merged sameKind
  refine Look.forall_type_append.mpr ⟨fun isExtension' t' member => ?_, by rw [kind?, if_pos rfl]⟩
  exact kind?_kept merged sameKind (before.registered isExtension' t' member)

include merged sameKind before in
theorem listed_of_mergesType (typeName name : String) : name ∈ (s'.types.listedNames typeName).toList ↔
    ∃ isExtension' t', .type isExtension' t' ∈ past ++ [.type isExtension t] ∧ t'.name = typeName ∧
      name ∈ t'.body.listedNames := by
  have append := Look.exists_type_append past isExtension t fun t' =>
    t'.name = typeName ∧ name ∈ t'.body.listedNames
  rw [append, ← before.listed, listedNames_of_mergesType merged sameKind]
  split
  · next same => simp [OrderedSet.mem_insertAll, same]
  · next other => simp [Ne.symm other]

include merged sameKind clean fresh before in
theorem directives_of_mergesType {typeName name : String} {kind : TypeKind}
    (registered : s'.types.kind? typeName = some kind) (composite : Intake.goesToLedger kind.location = false)
    (authorizes : name ∈ [Vocabulary.authenticated, Vocabulary.requiresScopes]) :
    (s'.types.applied typeName).named name =
      ((past ++ [Look.type isExtension t]).flatMap (Look.appliedTo typeName)).filter (·.name = name) := by
  rw [kind?_of_mergesType merged sameKind] at registered
  have same : ∀ old, s.types.kind? typeName = some old → old = kind := by
    intro old known
    split at registered
    · next here => rw [sameKind old (here ▸ known)]; exact Option.some.inj registered
    · exact Option.some.inj (known.symm.trans registered)
  rw [applied_of_mergesType merged clean fresh typeName name authorizes, List.flatMap_append, List.filter_append,
    before.applied_of_kind same composite name authorizes]
  by_cases same : typeName = t.name
  · rw [if_pos same] at registered
    have proper : Intake.goesToLedger t.kind.location = false := Option.some.inj registered ▸ composite
    simp [Look.appliedTo, same, proper]
  · simp [Look.appliedTo, same]

include merged clean fresh in
theorem heirs_of_mergesType : s'.ledger.heirs = s.ledger.heirs := by
  rw [(merged.ledger clean fresh).2]
  split
  · exact Authorization.Ledger.heirs_declare ..
  · rfl

include merged clean fresh before in
theorem declared_of_mergesType : s'.ledger =
    { Authorization.Ledger.empty.declareAll setting.maxOrScopes
        ((past ++ [Look.type isExtension t]).flatMap (Look.declarations setting)) with
      heirs := s'.ledger.heirs } := by
  rw [heirs_of_mergesType merged clean fresh, List.flatMap_append, (merged.ledger clean fresh).2]
  split
  · next leaf =>
    have one := declareAll_append_one setting.maxOrScopes _ (.leaf t.name, t.directives) s.ledger.heirs
      s.ledger.heirs s.ledger before.declared
    simp only [List.flatMap_cons, List.flatMap_nil, List.append_nil, Look.declarations, leaf, if_true]
    rw [← one, ← Authorization.Ledger.heirs_declare setting.maxOrScopes (.leaf t.name) t.directives s.ledger]
  · next other => simpa [Look.declarations, other] using before.declared

include merged sameKind clean fresh before in
/-- A look at a type that finds nothing wrong. -/
theorem coherent_of_mergesType : Coherent setting (past ++ [.type isExtension t]) s' := by
  have field? := field?_of_mergesType merged
  -- No field was looked at, so what was looked at of fields is what it was.
  have older : ∀ isExtension' t' f, .field isExtension' t' f ∈ past ++ [.type isExtension t] ↔
      .field isExtension' t' f ∈ past := fun _ _ _ => Look.field_mem_append nofun
  constructor
  case registered => exact registered_of_mergesType merged sameKind before
  case listed => exact listed_of_mergesType merged sameKind before
  case applied =>
    exact fun typeName kind registered composite name authorizes =>
      directives_of_mergesType merged sameKind clean fresh before registered composite authorizes
  case concrete => exact concrete_of_mergesType merged sameKind before.concrete
  case declared => exact declared_of_mergesType merged clean fresh before
  case allowedOnType => exact Look.forall_type_append.mpr ⟨before.allowedOnType, (merged.ledger clean fresh).1⟩
  case fields => simpa only [older, field?] using before.fields
  case heirs => simpa only [heirs_of_mergesType merged clean fresh, field?] using before.heirs
  case allowedOnField => simpa only [older] using before.allowedOnField
  case defined =>
    intro typeName known
    rw [kind?_of_mergesType merged sameKind] at known
    refine (Look.exists_type_append ..).mpr ?_
    split at known
    · next same => exact .inr same.symm
    · exact .inl (before.defined typeName known)
  case fieldType =>
    intro typeName name
    rw [field?, before.fieldType, List.flatMap_append]
    simp [Look.sightedType]

end MergedType

section MergedField

variable {setting : Setting} {past : List Look} {s s' : Survey} {isExtension : Bool} {t : TypeDefinition}
  {f : FieldDefinition} (merged : MergesField setting t.name (s.types.field? t.name f.name) f s s')
  (looked : Look.isServed setting t f = false) (composite : (s.types.composite? t.name).isSome = true)
  (clean : s'.errors = []) (fresh : s.repeats = .empty) (before : Coherent setting past s)

include merged looked composite before in
theorem isField_of_mergesField (typeName name : String) : (s'.types.field? typeName name).isSome = true ↔
    ∃ isExtension' t' f', .field isExtension' t' f' ∈ past ++ [.field isExtension t f] ∧ t'.name = typeName ∧
      f'.name = name ∧ Look.isServed setting t' f' = false := by
  obtain ⟨field, -, field?⟩ := field?_of_mergesField merged composite
  have append := Look.exists_field_append past isExtension t f fun t' f' =>
    t'.name = typeName ∧ f'.name = name ∧ Look.isServed setting t' f' = false
  rw [append, ← before.fields, field?]
  split
  · next here => simp [here, looked]
  · next other =>
    refine (or_iff_left fun h => ?_).symm
    exact other ⟨h.1.symm, h.2.1.symm⟩

include merged looked composite before in
/-- The first type stands, and a later one only fills in where there was none. -/
theorem fieldType_of_mergesField (typeName name : String) : (s'.types.field? typeName name).map Field.type =
    ((past ++ [Look.field isExtension t f]).flatMap (Look.sightedType setting typeName name)).head? := by
  obtain ⟨field, type, field?⟩ := field?_of_mergesField merged composite
  have earlier := before.fieldType typeName name
  rw [field?, List.flatMap_append]
  by_cases here : typeName = t.name ∧ name = f.name
  · obtain ⟨rfl, rfl⟩ := here
    simp [Look.sightedType, looked, List.head?_append, ← earlier, type]
  · have other : ¬ (t.name = typeName ∧ f.name = name ∧ Look.isServed setting t f = false) :=
      fun h => here ⟨h.1.symm, h.2.1.symm⟩
    simp [Look.sightedType, here, other, earlier]

include merged composite clean fresh before in
/-- A field has one heir, from its first sighting. -/
theorem heirs_of_mergesField (typeName name : String) :
    s'.ledger.heirs.filter (fun heir => heir.parent = typeName ∧ heir.field = name) =
      (s'.types.field? typeName name).toList.map fun field =>
        ⟨setting.roots.canonicalName typeName, typeName, name, field.type.namedType⟩ := by
  obtain ⟨field, type, field?⟩ := field?_of_mergesField merged composite
  rw [(merged.ledger clean fresh).2, field?]
  simp only [List.filter_append, before.heirs typeName name]
  by_cases here : typeName = t.name ∧ name = f.name
  · obtain ⟨rfl, rfl⟩ := here
    cases known : s.types.field? t.name f.name with
    | none => simp [type, known]
    | some old => simp [type, known]
  · rw [if_neg here]
    have other : ¬ (t.name = typeName ∧ f.name = name) := fun h => here ⟨h.1.symm, h.2.symm⟩
    split <;> simp [other]

include merged looked clean fresh before in
theorem declared_of_mergesField : s'.ledger =
    { Authorization.Ledger.empty.declareAll setting.maxOrScopes
        ((past ++ [Look.field isExtension t f]).flatMap (Look.declarations setting)) with
      heirs := s'.ledger.heirs } := by
  have one := declareAll_append_one setting.maxOrScopes _
    (.field t.name (setting.roots.canonicalName t.name) f.name, f.directives) s.ledger.heirs
    s'.ledger.heirs s.ledger before.declared
  rw [List.flatMap_append]
  simp only [List.flatMap_cons, List.flatMap_nil, List.append_nil, Look.declarations, looked,
    Bool.false_eq_true, if_false]
  rw [← one, (merged.ledger clean fresh).2]

include merged looked composite clean fresh before in
/-- A look at a field that finds nothing wrong. -/
theorem coherent_of_mergesField : Coherent setting (past ++ [.field isExtension t f]) s' := by
  obtain ⟨kind?, listedNames, applied⟩ := retains_of_mergesField merged
  -- No type was looked at, so what was looked at of types is what it was.
  have older : ∀ isExtension' t', .type isExtension' t' ∈ past ++ [.field isExtension t f] ↔
      .type isExtension' t' ∈ past := fun _ _ => Look.type_mem_append nofun
  constructor
  case registered => simpa only [older, kind?] using before.registered
  case defined => simpa only [older, kind?] using before.defined
  case listed => simpa only [older, listedNames] using before.listed
  case allowedOnType => simpa only [older] using before.allowedOnType
  case fields => exact isField_of_mergesField merged looked composite before
  case fieldType => exact fieldType_of_mergesField merged looked composite before
  case heirs => exact heirs_of_mergesField merged composite clean fresh before
  case declared => exact declared_of_mergesField merged looked clean fresh before
  case applied =>
    intro typeName kind registered composite name authorizes
    rw [applied, before.applied typeName kind (kind? typeName ▸ registered) composite name authorizes,
      List.flatMap_append]
    simp [Look.appliedTo]
  case concrete =>
    intro abstractName name
    rw [merged.concrete, kind?, listedNames, implemented_congr kind? listedNames]
    exact before.concrete abstractName name
  case allowedOnField =>
    refine Look.forall_field_append.mpr ⟨before.allowedOnField, fun _ => ?_⟩
    exact (merged.ledger clean fresh).1

end MergedField

theorem composite?_of_kind? {types : Registry} {typeName : String} {kind : TypeKind}
    (known : types.kind? typeName = some kind) (composite : kind = .object ∨ kind = .interface) :
    ∃ entry c, types.get? typeName = some entry ∧ entry.kind = kind ∧ entry.composite? = some c := by
  unfold Registry.kind? at known
  obtain ⟨entry, found, rfl⟩ := Option.map_eq_some_iff.mp known
  obtain ⟨_, _, _, _, shape⟩ := entry
  cases shape with
  | object c | interface c => exact ⟨_, c, found, rfl, rfl⟩
  | enum | inputObject | scalar | union => exact absurd composite (by simp [TypeEntry.kind, Shape.kind])

theorem kind_of_mem_fields {t : TypeDefinition} {f : FieldDefinition} (member : f ∈ t.fields) :
    t.kind = .object ∨ t.kind = .interface := by
  obtain ⟨_, _, _, body⟩ := t
  cases body with
  | object => exact Or.inl rfl
  | interface => exact Or.inr rfl
  | enum | inputObject | scalar | union => exact absurd member List.not_mem_nil

section Follows

variable {setting : Setting} {past : List Look} {s : Survey} {isExtension : Bool} {t : TypeDefinition}
  {f : FieldDefinition} {entry : TypeEntry}

/-- The type of a field that is looked at is registered with its kind. -/
theorem Coherent.exists_entry (before : Coherent setting past s) (follows : (Look.field isExtension t f).Follows past) :
    ∃ entry, s.types.get? t.name = some entry ∧ entry.kind = t.kind ∧ entry.composite?.isSome = true := by
  obtain ⟨entry, c, found, kind, composite⟩ :=
    composite?_of_kind? (before.registered isExtension t follows.1) (kind_of_mem_fields follows.2)
  exact ⟨entry, found, kind, Option.isSome_of_eq_some composite⟩

/-- What a federation serves by itself is passed by, and nothing else. -/
theorem Coherent.isServed_of_passed (before : Coherent setting past s)
    (follows : (Look.field isExtension t f).Follows past)
    (served : ∀ entry, s.types.get? t.name = some entry → entry.composite?.isSome = true →
      ((setting.operation? entry.kind t.name).isSome && isReservedField f.name) = true) :
    Look.isServed setting t f = true := by
  obtain ⟨entry, found, kind, composite⟩ := before.exists_entry follows
  rw [Look.isServed, ← kind]
  exact served entry found composite

theorem Coherent.isServed_of_merged (before : Coherent setting past s)
    (follows : (Look.field isExtension t f).Follows past) (found : s.types.get? t.name = some entry)
    (unserved : ((setting.operation? entry.kind t.name).isSome && isReservedField f.name) = false) :
    Look.isServed setting t f = false := by
  obtain ⟨entry', found', kind, -⟩ := before.exists_entry follows
  obtain rfl := Option.some.inj (found.symm.trans found')
  rw [Look.isServed, ← kind]
  exact unserved

end Follows

/-- What holds before a look without errors holds after it. -/
theorem coherent_look {setting : Setting} {past : List Look} {s : Survey} {l : Look}
    (follows : l.Follows past) (clean : (s.look setting l).errors = []) (fresh : s.repeats = .empty)
    (before : Coherent setting past s) : Coherent setting (past ++ [l]) (s.look setting l) := by
  have looked := looked_look setting s l
  generalize s.look setting l = s' at looked clean ⊢
  cases looked with
  | retained noType noField kept _ =>
    exact coherent_of_retains kept noType (fun _ _ _ field => absurd field (noField _ _ _)) before
  | type sameKind => exact coherent_of_mergesType (mergesType_merge ..) sameKind clean fresh before
  | conflict | duplicate => simp [report] at clean
  | passed served =>
    refine coherent_of_retains (Annotates.refl s).retains (fun _ _ same => Look.noConfusion same) ?_ before
    rintro _ _ _ ⟨⟩
    exact before.isServed_of_passed follows served
  | field found composite unserved =>
    refine coherent_of_mergesField (mergesField_mergeField ..) (before.isServed_of_merged follows found unserved) ?_
      clean fresh before
    simpa [Registry.composite?, found] using composite

/-- What holds before any look and is kept by each look that reports nothing holds after a survey without errors. -/
theorem looks_induction {setting : Setting} {looks past : List Look} {s : Survey} {motive : List Look → Survey → Prop}
    (ordered : Look.Ordered past looks) (clean : (looks.foldl (look setting) s).errors = [])
    (fresh : s.repeats = .empty) (coherent : Coherent setting past s)
    (one : ∀ (past : List Look) (s : Survey), ∀ l ∈ looks, l.Follows past → (s.look setting l).errors = [] →
      s.repeats = .empty → Coherent setting past s → motive past s → motive (past ++ [l]) (s.look setting l))
    (before : motive past s) :
    Coherent setting (past ++ looks) (looks.foldl (look setting) s) ∧
      motive (past ++ looks) (looks.foldl (look setting) s) := by
  -- The past grows with every look, and errors at any time would be there at the end.
  induction looks generalizing past s with
  | nil => simpa using ⟨coherent, before⟩
  | cons l rest ih =>
    have now := (Grows.foldl _ (grows_look setting) rest (s.look setting l)).clean clean
    have after := ih ordered.2 clean (((grows_look setting s l).repeats now).trans fresh)
      (coherent_look ordered.1 now fresh coherent)
      (fun past s l member => one past s l (List.mem_cons_of_mem _ member))
      (one past s l List.mem_cons_self ordered.1 now fresh coherent before)
    simpa using after

theorem walk_induction {setting : Setting} {statements : List Statement} {errors : List Error}
    {motive : List Look → Survey → Prop} (clean : (walk setting errors statements).errors = [])
    (one : ∀ (past : List Look) (s : Survey), ∀ l ∈ Look.all statements, l.Follows past →
      (s.look setting l).errors = [] → s.repeats = .empty → Coherent setting past s → motive past s →
        motive (past ++ [l]) (s.look setting l))
    (before : motive [] (start errors)) :
    Coherent setting (Look.all statements) (walk setting errors statements) ∧
      motive (Look.all statements) (walk setting errors statements) := by
  have same := foldl_step_eq setting statements (start errors) clean
  unfold walk at clean ⊢
  rw [same] at clean ⊢
  exact looks_induction (Look.ordered_all [] statements) clean rfl (coherent_start setting errors) one before

/-- A survey that ends without errors agrees with the text. -/
theorem coherent_walk {setting : Setting} {statements : List Statement} {errors : List Error}
    (clean : (walk setting errors statements).errors = []) :
    Coherent setting (Look.all statements) (walk setting errors statements) :=
  (walk_induction (motive := fun _ _ => True) clean (fun _ _ _ _ _ _ _ _ _ => trivial) trivial).1

end Survey

end Federation
