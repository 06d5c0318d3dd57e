import Federation.Proofs.Survey.Intake

/-!
# What is merged into the registry

What one declaration of a field and one definition of a type do to types, requirements and concrete
types, whatever else they record.
-/

namespace Federation

open Schema

namespace Registry

/-- The interfaces or members that a registered type lists. -/
def listedNames (types : Registry) (typeName : String) : NameSet :=
  ((types.get? typeName).map fun entry => entry.shape.listedNames).getD .empty

def applied (types : Registry) (typeName : String) : AppliedDirectives :=
  ((types.get? typeName).map TypeEntry.directives).getD .empty

/-- The interfaces that a registered object implements. -/
def implemented (types : Registry) (typeName : String) : List String :=
  if types.kind? typeName = some .object then (types.listedNames typeName).toList else []

end Registry

namespace Survey

/-- What happens to types, requirements and concrete types when a declaration of a field is merged. -/
structure MergesField (setting : Setting) (parent : String) (existing? : Option Field)
    (f : FieldDefinition) (s s' : Survey) : Prop where
  types : ∃ field : Field, field.type = (existing?.map Field.type).getD f.type ∧
    field.directives = (s.takeIn setting .fieldDefinition (coordinates parent f.name)
      ((existing?.map Field.directives).getD .empty) f.directives).1.accepted ∧
    s'.types = s.types.adjust parent fun entry =>
      { entry with
        shape := entry.shape.mapComposite fun c => { c with fields := c.fields.insert f.name field } }
  concrete : s'.concrete = s.concrete
  grows : Grows s s'
  /-- The errors of the intake stay. -/
  intake : s'.errors = [] → (s.takeIn setting .fieldDefinition (coordinates parent f.name)
    ((existing?.map Field.directives).getD .empty) f.directives).1.errors = []
  /-- Without errors the directives are in order, and the requirement that they declare is recorded. -/
  ledger : s'.errors = [] → s.repeats = .empty →
    (∀ d ∈ f.directives, setting.Allows .fieldDefinition d) ∧
    s'.ledger =
      { s.ledger.declare setting.maxOrScopes
          (.field parent (setting.roots.canonicalName parent) f.name) f.directives with
        heirs := s.ledger.heirs ++ if existing?.isSome then [] else
          [⟨setting.roots.canonicalName parent, parent, f.name, f.type.namedType⟩] }

namespace FieldMerge

variable (m : FieldMerge)

theorem annotates_taken : Annotates m.before m.taken.2 := annotates_takeIn ..

theorem annotates_noted : Annotates m.admitted m.noted := by
  have argued := annotates_sightArguments m.setting m.entry.kind m.parent m.declaration.name m.declaration.arguments
    ((m.existing?.map Field.arguments).getD .empty, m.admitted)
  exact argued.trans (.of_writes m.writes_records (by decide))

theorem grows_bound : Grows m.noted m.bound := by
  unfold bound
  split
  · exact .refl m.noted
  · have events := annotates_bindEvents m.canonicalName m.declaration.name m.applied m.argued.1 m.noted
    exact events.grows.trans (.of_writes (writes_ledger ..) (by decide) (by decide))

theorem grows_later : Grows m.admitted m.after :=
  (m.annotates_noted.grows.trans m.grows_bound).trans (.of_writes m.writes_after (by decide) (by decide))

theorem grows : Grows m.before m.after := by
  have admitted : Grows m.taken.2 m.admitted := ⟨List.prefix_refl _, fun _ => rfl⟩
  exact (m.annotates_taken.grows.trans admitted).trans m.grows_later

/-- A field that is new is one more heir. -/
theorem ledger_bound : m.bound.ledger =
    { m.noted.ledger with heirs := m.noted.ledger.heirs ++ if m.existing?.isSome then [] else [m.heir] } := by
  unfold bound
  cases m.existing? with
  | some old => simp
  | none =>
    have events := annotates_bindEvents m.canonicalName m.declaration.name m.applied m.argued.1 m.noted
    dsimp only
    rw [events.ledger]
    rfl

theorem types_bound : m.bound.types = m.before.types := calc
  m.bound.types = m.noted.types := m.writes_bound.same .types (by decide)
  _ = m.admitted.types := m.annotates_noted.types
  _ = m.before.types := m.writes_admitted.same .types (by decide)

theorem concrete_after : m.after.concrete = m.before.concrete := m.writes.same .concrete (by decide)

theorem adds_taken (fresh : m.before.repeats = .empty) (quiet : m.taken.1.errors = []) :
    Intake.Adds m.setting .fieldDefinition m.declaration.directives
      ⟨(m.existing?.map Field.directives).getD .empty, [], m.before.repeats, []⟩ m.taken.1 :=
  Intake.adds_run m.setting .fieldDefinition (coordinates m.parent m.declaration.name) m.declaration.directives
    ⟨(m.existing?.map Field.directives).getD .empty, [], m.before.repeats, []⟩ fresh quiet

/-- Only directives that declare requirements are handed on, and the others would not count. -/
theorem ledger_noted (fresh : m.before.repeats = .empty) (quiet : m.taken.1.errors = []) :
    m.noted.ledger = m.before.ledger.declare m.setting.maxOrScopes
      (.field m.parent m.canonicalName m.declaration.name) m.declaration.directives := by
  rw [m.annotates_noted.ledger, ← Authorization.Ledger.declare_filter]
  exact congrArg (m.before.ledger.declare _ _) (m.adds_taken fresh quiet).authorization

theorem type_field : m.field.type = (m.existing?.map Field.type).getD m.declaration.type := by
  unfold field
  cases m.existing? <;> rfl

theorem directives_field : m.field.directives = m.applied := by
  unfold field
  cases m.existing? <;> rfl

theorem mergesField : MergesField m.setting m.parent m.existing? m.declaration m.before m.after := by
  have quiet (clean : m.after.errors = []) : m.taken.1.errors = [] :=
    (List.append_eq_nil_iff.mp (m.grows_later.clean clean)).2
  refine ⟨⟨m.field, m.type_field, m.directives_field, ?_⟩, m.concrete_after, m.grows, quiet, fun clean fresh => ?_⟩
  · simp only [after, reshape, m.types_bound]
  · refine ⟨(m.adds_taken fresh (quiet clean)).allowed, ?_⟩
    have ledger : m.after.ledger = _ := m.ledger_bound
    rw [ledger, m.ledger_noted fresh (quiet clean), Authorization.Ledger.heirs_declare]
    rfl

end FieldMerge

theorem mergesField_mergeField (setting : Setting) (parent : String) (entry : TypeEntry)
    (existing? : Option Field) (f : FieldDefinition) (s : Survey) :
    MergesField setting parent existing? f s (s.mergeField setting parent entry existing? f) := by
  have merged := FieldMerge.mergesField ⟨setting, parent, entry, existing?, f, s⟩
  rwa [FieldMerge.after_eq] at merged

/-! ## Types -/

/-- From one survey to the other nothing changes of types, requirements and errors, and of concrete types
the given pairs of an abstract and a concrete type are added. -/
structure AddsConcrete (pairs : List (String × String)) (a b : Survey) : Prop where
  types : b.types = a.types
  ledger : b.ledger = a.ledger
  grows : Grows a b
  concrete : ∀ abstractName name, name ∈ (b.concrete.of abstractName).toList ↔
    name ∈ (a.concrete.of abstractName).toList ∨ (abstractName, name) ∈ pairs

private theorem mem_map_from {abstractName name owner : String} {names : List String} :
    (abstractName, name) ∈ names.map (fun member => (owner, member)) ↔
      abstractName = owner ∧ name ∈ names := by
  constructor
  · intro member
    obtain ⟨_, listed, same⟩ := List.mem_map.mp member
    obtain ⟨rfl, rfl⟩ := Prod.mk.inj same
    exact ⟨rfl, listed⟩
  · rintro ⟨rfl, listed⟩
    exact List.mem_map.mpr ⟨name, listed, rfl⟩

private theorem mem_map_to {abstractName name owner : String} {names : List String} :
    (abstractName, name) ∈ names.map (fun interface => (interface, owner)) ↔
      name = owner ∧ abstractName ∈ names := by
  constructor
  · intro member
    obtain ⟨_, listed, same⟩ := List.mem_map.mp member
    obtain ⟨rfl, rfl⟩ := Prod.mk.inj same
    exact ⟨rfl, listed⟩
  · rintro ⟨rfl, listed⟩
    exact List.mem_map.mpr ⟨abstractName, listed, rfl⟩

theorem addsConcrete_foldl {α : Type} (pair : α → String × String) (step : Survey → α → Survey)
    (one : ∀ s x, AddsConcrete [pair x] s (step s x)) (xs : List α) (s : Survey) :
    AddsConcrete (xs.map pair) s (xs.foldl step s) := by
  induction xs generalizing s with
  | nil => exact ⟨rfl, rfl, .refl s, by simp⟩
  | cons x xs ih =>
    have first := one s x
    have rest := ih (step s x)
    refine ⟨rest.types.trans first.types, rest.ledger.trans first.ledger, first.grows.trans rest.grows,
      fun abstractName name => ?_⟩
    rw [List.foldl_cons, rest.concrete, first.concrete]
    simp [or_assoc]

theorem addsConcrete_addConcrete (s : Survey) (abstractName concreteName : String) :
    AddsConcrete [(abstractName, concreteName)] s (s.addConcrete abstractName concreteName) := by
  refine ⟨rfl, rfl, ⟨List.prefix_refl _, fun _ => rfl⟩, fun other name => ?_⟩
  simp [addConcrete, ConcreteTypes.mem_of_add]

theorem addsConcrete_recordMembers (t : TypeDefinition) (listed : NameSet) (s : Survey) :
    AddsConcrete ((listed.fresh t.body.listedNames).map fun member => (t.name, member)) s
      (s.recordMembers t listed) := by
  refine addsConcrete_foldl _ _ (fun s member => ?_) _ s
  have added := addsConcrete_addConcrete s t.name member
  dsimp only
  split
  · exact added
  · exact ⟨added.types, added.ledger, ⟨added.grows.errors, added.grows.repeats⟩, added.concrete⟩

/-- The members of a union that a definition adds, each with the union. -/
def newMembers (t : TypeDefinition) (listed : NameSet) : List (String × String) :=
  if t.kind = .union then (listed.fresh t.body.listedNames).map fun member => (t.name, member) else []

theorem mem_newMembers {t : TypeDefinition} {listed : NameSet} {abstractName name : String} :
    (abstractName, name) ∈ newMembers t listed ↔
      t.kind = .union ∧ abstractName = t.name ∧ name ∈ listed.fresh t.body.listedNames := by
  unfold newMembers
  split
  · next union => simpa only [union, true_and] using mem_map_from
  · next other => simp [other]

theorem addsConcrete_newMembers (t : TypeDefinition) (listed : NameSet) (s : Survey) :
    AddsConcrete (newMembers t listed) s (if t.kind = .union then s.recordMembers t listed else s) := by
  unfold newMembers
  split
  · exact addsConcrete_recordMembers t listed s
  · exact ⟨rfl, rfl, .refl s, by simp⟩

theorem addsConcrete_recordImplementations (typeName : String) (s : Survey) :
    AddsConcrete ((s.types.implemented typeName).map fun interface => (interface, typeName)) s
      (s.recordImplementations typeName) := by
  have nothing : AddsConcrete [] s s := ⟨rfl, rfl, .refl s, by simp⟩
  unfold recordImplementations Registry.implemented Registry.kind? Registry.listedNames
  rcases s.types.get? typeName with _ | ⟨_, _, _, _, _ | _ | _ | c | _ | _⟩
  case some.object =>
    exact addsConcrete_foldl _ _ (fun s interface => addsConcrete_addConcrete s interface typeName) _ s
  all_goals exact nothing

/-- What happens to types, requirements and concrete types when a definition or an extension of a type is
merged. -/
structure MergesType (setting : Setting) (t : TypeDefinition) (s s' : Survey) : Prop where
  types : ∃ entry : TypeEntry, s'.types = s.types.insert t.name entry ∧
    entry.shape =
      (((s.types.get? t.name).map TypeEntry.shape).getD (.ofKind t.kind)).list t.body.listedNames ∧
    (s'.errors = [] → s.repeats = .empty →
      ∀ name ∈ [Vocabulary.authenticated, Vocabulary.requiresScopes],
        entry.directives.named name =
          (s.types.applied t.name).named name ++
            if Intake.goesToLedger t.kind.location then [] else t.directives.filter (·.name = name))
  grows : Grows s s'
  /-- Without errors the directives are in order, and what they require of an enum or a scalar is
  recorded. -/
  ledger : s'.errors = [] → s.repeats = .empty →
    (∀ d ∈ t.directives, setting.Allows t.kind.location d) ∧
    s'.ledger =
      if t.kind.isLeaf then
        s.ledger.declare setting.maxOrScopes (.leaf t.name) t.directives
      else s.ledger
  concrete : ∀ abstractName name, name ∈ (s'.concrete.of abstractName).toList ↔
    name ∈ (s.concrete.of abstractName).toList ∨
    (t.kind = .union ∧ abstractName = t.name ∧
      name ∈ (s.types.listedNames t.name).fresh t.body.listedNames) ∨
    (name = t.name ∧ abstractName ∈ s'.types.implemented t.name)

/-- What the intake of the directives on a type does to types, requirements and concrete types. -/
structure TakesInType (setting : Setting) (t : TypeDefinition) (before : AppliedDirectives) (s : Survey)
    (intake : Intake) (s' : Survey) : Prop where
  types : s'.types = s.types
  concrete : s'.concrete = s.concrete
  grows : Grows s s'
  adds : s'.errors = [] → s.repeats = .empty →
    Intake.Adds setting t.kind.location t.directives ⟨before, [], s.repeats, []⟩ intake
  ledger : s'.errors = [] → s.repeats = .empty → s'.ledger =
    if t.kind.isLeaf then s.ledger.declare setting.maxOrScopes (.leaf t.name) t.directives
    else s.ledger

theorem takesInType_takeInType (setting : Setting) (t : TypeDefinition) (old? : Option TypeEntry)
    (s : Survey) :
    TakesInType setting t ((old?.map TypeEntry.directives).getD .empty) s (s.takeInType setting t old?).1
      (s.takeInType setting t old?).2 := by
  unfold takeInType
  generalize (old?.map TypeEntry.directives).getD .empty = before
  have taken := annotates_takeIn setting t.kind.location t.name before t.directives s
  have adds (clean : (s.takeIn setting t.kind.location t.name before t.directives).2.errors = [])
      (fresh : s.repeats = .empty) : Intake.Adds setting t.kind.location t.directives
        ⟨before, [], s.repeats, []⟩ (s.takeIn setting t.kind.location t.name before t.directives).1 :=
    Intake.adds_run setting t.kind.location t.name t.directives ⟨before, [], s.repeats, []⟩ fresh
      (List.append_eq_nil_iff.mp clean).2
  dsimp only
  generalize s.takeIn setting t.kind.location t.name before t.directives = result at taken adds ⊢
  obtain ⟨intake, s₁⟩ := result
  dsimp only at taken adds ⊢
  -- Enums and scalars record what they require, objects and interfaces their keys.
  cases kind : t.kind
  case enum | scalar =>
    refine ⟨taken.types, taken.concrete, ⟨taken.grows.errors, taken.grows.repeats⟩, adds, ?_⟩
    intro clean fresh
    have authorization := (adds clean fresh).authorization
    rw [kind] at authorization
    rw [kind]
    change s₁.ledger.declare _ _ intake.authorization = _
    rw [authorization, taken.ledger]
    exact Authorization.Ledger.declare_filter ..
  case inputObject | union =>
    exact ⟨taken.types, taken.concrete, taken.grows, adds, fun _ _ => by rw [kind]; exact taken.ledger⟩
  case object | interface =>
    have keys : Annotates s₁ (s₁.recordKeys t.name intake.accepted) := .of_writes (writes_recordKeys ..) (by decide)
    have recorded := taken.trans keys
    exact ⟨recorded.types, recorded.concrete, recorded.grows, fun clean => adds (keys.grows.clean clean),
      fun _ _ => by rw [kind]; exact recorded.ledger⟩

namespace TypeMerge

variable (m : TypeMerge)

theorem takesInType_taken : TakesInType m.setting m.type ((m.old?.map TypeEntry.directives).getD .empty) m.noted
    m.taken.1 m.taken.2 :=
  takesInType_takeInType m.setting m.type m.old? m.noted

theorem addsConcrete_joined : AddsConcrete (newMembers m.type m.listed) m.reported m.joined :=
  addsConcrete_newMembers m.type m.listed m.reported

theorem addsConcrete_after :
    AddsConcrete ((m.settled.types.implemented m.type.name).map fun interface => (interface, m.type.name)) m.settled
      m.after :=
  addsConcrete_recordImplementations m.type.name m.settled

theorem grows_settled : Grows m.registered m.settled := by
  unfold settled
  split
  · exact (annotates_report ..).grows
  · exact .refl m.registered

/-- No stage takes an error back, so a clean end is a clean intake. -/
theorem grows_later : Grows m.taken.2 m.after := by
  have reported : Grows m.taken.2 m.reported := (annotates_reportAll ..).grows
  have registered : Grows m.joined m.registered := .of_writes m.writes_registered (by decide) (by decide)
  have joined := reported.trans m.addsConcrete_joined.grows
  exact (joined.trans registered).trans (m.grows_settled.trans m.addsConcrete_after.grows)

theorem grows : Grows m.before m.after := by
  have noted : Grows m.before m.noted := .of_writes m.writes_noted (by decide) (by decide)
  exact (noted.trans m.takesInType_taken.grows).trans m.grows_later

theorem types_joined : m.joined.types = m.before.types := calc
  m.joined.types = m.reported.types := m.writes_joined.same .types (by decide)
  _ = m.taken.2.types := m.writes_reported.same .types (by decide)
  _ = m.noted.types := m.writes_taken.same .types (by decide)
  _ = m.before.types := m.writes_noted.same .types (by decide)

theorem types_settled : m.settled.types = m.before.types.insert m.type.name m.entry := calc
  m.settled.types = m.registered.types := m.writes_settled.same .types (by decide)
  _ = m.before.types.insert m.type.name m.entry := congrArg (Table.insert · m.type.name m.entry) m.types_joined

theorem types_after : m.after.types = m.before.types.insert m.type.name m.entry :=
  (m.writes_after.same .types (by decide)).trans m.types_settled

theorem shape_entry : m.entry.shape =
    ((m.old?.map TypeEntry.shape).getD (.ofKind m.type.kind)).list m.type.body.listedNames :=
  congrArg (Shape.list m.type.body.listedNames) (TypeEntry.shape_sighted ..)

theorem directives_entry : m.entry.directives = m.taken.1.accepted := TypeEntry.directives_sighted ..

/-- What is accepted of the directives is what the type has in the end. -/
theorem applied_after : m.after.types.applied m.type.name = m.taken.1.accepted := by
  rw [Registry.applied, m.types_after, Table.get?_insert, if_pos rfl]
  exact m.directives_entry

/-- Concrete types are added for new members of a union and for the interfaces of an object. -/
theorem mem_concrete_after (abstractName name : String) : name ∈ (m.after.concrete.of abstractName).toList ↔
    name ∈ (m.before.concrete.of abstractName).toList ∨
    (m.type.kind = .union ∧ abstractName = m.type.name ∧ name ∈ m.listed.fresh m.type.body.listedNames) ∨
    (name = m.type.name ∧ abstractName ∈ m.after.types.implemented m.type.name) := by
  have settled : m.settled.concrete = m.joined.concrete :=
    (m.writes_settled.same .concrete (by decide)).trans (m.writes_registered.same .concrete (by decide))
  have reported : m.reported.concrete = m.before.concrete :=
    m.takesInType_taken.concrete.trans (m.writes_noted.same .concrete (by decide))
  rw [m.addsConcrete_after.concrete, settled, m.addsConcrete_joined.concrete, reported, m.addsConcrete_after.types,
    or_assoc, mem_map_to, mem_newMembers]

theorem mergesType : MergesType m.setting m.type m.before m.after := by
  have begun (fresh : m.before.repeats = .empty) : m.noted.repeats = .empty :=
    (m.writes_noted.same .repeats (by decide)).trans fresh
  have adds (clean : m.after.errors = []) (fresh : m.before.repeats = .empty) :=
    m.takesInType_taken.adds (m.grows_later.clean clean) (begun fresh)
  refine ⟨⟨m.entry, m.types_after, m.shape_entry, ?_⟩, m.grows, ?_, m.mem_concrete_after⟩
  · intro clean fresh name member
    rw [m.directives_entry]
    exact (adds clean fresh).accepted name member
  · intro clean fresh
    have later : m.after.ledger = m.taken.2.ledger := m.writes_later.same .ledger (by decide)
    have noted : m.noted.ledger = m.before.ledger := m.writes_noted.same .ledger (by decide)
    refine ⟨(adds clean fresh).allowed, ?_⟩
    rw [later, m.takesInType_taken.ledger (m.grows_later.clean clean) (begun fresh), noted]

end TypeMerge

theorem mergesType_merge (setting : Setting) (isExtension : Bool) (t : TypeDefinition) (s : Survey) :
    MergesType setting t s (s.merge setting isExtension t) :=
  TypeMerge.mergesType ⟨setting, isExtension, t, s⟩

end Survey

end Federation
