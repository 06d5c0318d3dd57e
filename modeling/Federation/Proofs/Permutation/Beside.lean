import Federation.Proofs.Survey.Orderly

/-!
# A type beside what is known

A type that was not seen before is looked at as if nothing else were known: what the walk adds is what it finds where
it begins with that type. Nothing of this needs to know what the other types are.
-/

namespace Federation

open Schema

namespace Survey

/-- What is noted after a definition, given what was noted before it and what would be noted of it alone. -/
structure Adds (base alone both : Survey) : Prop where
  errors : both.errors = base.errors ++ alone.errors
  repeats : both.repeats = alone.repeats
  fieldSets : ∀ name, both.fieldSets.get? name = (alone.fieldSets.get? name).or (base.fieldSets.get? name)
  filters : ∀ path, both.filters.get? path = (alone.filters.get? path).or (base.filters.get? path)
  referenced : ∀ name,
    name ∈ both.referenced.toList ↔ name ∈ base.referenced.toList ∨ name ∈ alone.referenced.toList
  externals : ∀ path, path ∈ both.externals.toList ↔ path ∈ base.externals.toList ∨ path ∈ alone.externals.toList
  bindings : ∀ name, both.bindings.getD name [] = base.bindings.getD name [] ++ alone.bindings.getD name []

/-- The same for the definition of a type that was not seen before. -/
structure Beside (typeName : String) (base alone both : Survey) : Prop extends Adds base alone both where
  entry : both.types.get? typeName = alone.types.get? typeName
  /-- Nothing was known of the field sets of the type. -/
  unseen : base.fieldSets.get? typeName = none
  ownFieldSets : ∀ name ∈ alone.fieldSets.keys, name = typeName
  ownFilters : ∀ path ∈ alone.filters.keys, ∃ name, path = coordinates typeName name

theorem adds_start {base : Survey} (once : base.repeats = .empty) : Adds base (start []) base where
  errors := (List.append_nil _).symm
  repeats := once
  fieldSets _ := rfl
  filters _ := rfl
  referenced name := by simp [start]
  externals path := by simp [start]
  bindings name := (List.append_nil _).symm

theorem beside_start {typeName : String} {base : Survey} (once : base.repeats = .empty)
    (unregistered : base.types.get? typeName = none) (unseen : base.fieldSets.get? typeName = none) :
    Beside typeName base (start []) base :=
  { adds_start once with entry := unregistered, unseen, ownFieldSets := nofun, ownFilters := nofun }

namespace Beside

variable {setting : Setting} {typeName : String} {base alone both : Survey} (h : Beside typeName base alone both)

include h

/-- Steps that add alike do so one after another. -/
theorem foldl {α : Type} {step : Survey → α → Survey} (items : List α)
    (one : ∀ x alone both, Beside typeName base alone both → Beside typeName base (step alone x) (step both x)) :
    Beside typeName base (items.foldl step alone) (items.foldl step both) := by
  induction items generalizing alone both with
  | nil => exact h
  | cons x rest ih => exact ih (one x alone both h)

theorem reportAll (es : List Error) : Beside typeName base (alone.reportAll es) (both.reportAll es) :=
  { h with errors := by simp [Survey.reportAll, h.errors] }

theorem report (e : Error) : Beside typeName base (alone.report e) (both.report e) := h.reportAll [e]

theorem refer (name : String) : Beside typeName base (alone.refer name) (both.refer name) := by
  refine { h with referenced := fun other => ?_ }
  simp only [Survey.refer, OrderedSet.mem_insert, h.referenced, or_assoc]

theorem reshape (f : Shape → Shape) :
    Beside typeName base (alone.reshape typeName f) (both.reshape typeName f) := by
  refine { h with entry := ?_ }
  simp only [Survey.reshape, Table.get?_adjust, h.entry]

theorem register (entry : TypeEntry) :
    Beside typeName base { alone with types := alone.types.insert typeName entry }
      { both with types := both.types.insert typeName entry } := by
  refine { h with entry := ?_ }
  simp only [Table.get?_insert, if_true]

variable (setting) in
/-- The intake of directives reads nothing but what was repeated, and nothing was before. -/
theorem takeIn (location : Location) (hostPath : String) (accepted : AppliedDirectives) (applied : List Directive) :
    (both.takeIn setting location hostPath accepted applied).1 =
        (alone.takeIn setting location hostPath accepted applied).1 ∧
      Beside typeName base (alone.takeIn setting location hostPath accepted applied).2
        (both.takeIn setting location hostPath accepted applied).2 := by
  simp only [Survey.takeIn, h.repeats, true_and]
  exact { h with errors := by simp [h.errors], repeats := rfl }

variable (setting) in
theorem authorize (host : Authorization.Host) (intake : Intake) :
    Beside typeName base (alone.authorize setting host intake) (both.authorize setting host intake) := { h with }

/-! ## The type itself -/

theorem recordKeys (name : String) (applied : AppliedDirectives) :
    Beside typeName base (alone.recordKeys name applied) (both.recordKeys name applied) := by
  unfold Survey.recordKeys
  dsimp only
  split
  · exact { h with }
  · exact h

theorem recordMembers (t : TypeDefinition) (listed : NameSet) :
    Beside typeName base (alone.recordMembers t listed) (both.recordMembers t listed) := by
  refine h.foldl _ fun member alone both h => ?_
  have added : Beside typeName base (alone.addConcrete t.name member) (both.addConcrete t.name member) := { h with }
  dsimp only
  split
  · exact added
  · exact added.refer member

theorem recordImplementations :
    Beside typeName base (alone.recordImplementations typeName) (both.recordImplementations typeName) := by
  unfold Survey.recordImplementations
  rw [h.entry]
  split
  · exact h.foldl _ fun _ _ _ h => { h with }
  · exact h

variable (setting) in
theorem takeInType (t : TypeDefinition) (old? : Option TypeEntry) :
    (both.takeInType setting t old?).1 = (alone.takeInType setting t old?).1 ∧
      Beside typeName base (alone.takeInType setting t old?).2 (both.takeInType setting t old?).2 := by
  obtain ⟨intake, taken⟩ := h.takeIn setting t.kind.location t.name
    ((old?.map TypeEntry.directives).getD .empty) t.directives
  unfold Survey.takeInType
  dsimp only
  rw [intake]
  generalize Survey.takeIn setting _ _ _ _ alone = found at taken ⊢
  generalize Survey.takeIn setting _ _ _ _ both = found' at taken ⊢
  cases t.kind with
  | enum | scalar => exact ⟨rfl, taken.authorize setting _ _⟩
  | object | interface => exact ⟨rfl, taken.recordKeys t.name _⟩
  | inputObject | union => exact ⟨rfl, taken⟩

end Beside

/-! A definition of a type goes through the same stages beside what is known as alone. -/

namespace TypeMerge

variable {base both : Survey} {m : TypeMerge} (h : Beside m.type.name base m.before both)

include h

theorem old?_beside : (m.on both).old? = m.old? := h.entry

theorem noted_beside : Beside m.type.name base m.noted (m.on both).noted := by
  unfold noted
  rw [type_on]
  split
  · exact { h with }
  · exact h

theorem taken_beside :
    (m.on both).taken.1 = m.taken.1 ∧ Beside m.type.name base m.taken.2 (m.on both).taken.2 := by
  unfold taken
  rw [old?_beside h]
  exact (noted_beside h).takeInType ..

theorem listed_beside : (m.on both).listed = m.listed := by
  unfold listed
  rw [old?_beside h]

theorem reported_beside : Beside m.type.name base m.reported (m.on both).reported := by
  unfold reported
  rw [listed_beside h]
  exact (taken_beside h).2.reportAll _

theorem joined_beside : Beside m.type.name base m.joined (m.on both).joined := by
  unfold joined
  rw [type_on, listed_beside h]
  split
  · exact (reported_beside h).recordMembers ..
  · exact reported_beside h

theorem extension_beside : (m.on both).extension = m.extension := by
  unfold extension
  rw [(taken_beside h).1]
  rfl

theorem entry_beside : (m.on both).entry = m.entry := by
  unfold entry
  rw [old?_beside h, (taken_beside h).1, extension_beside h]
  rfl

theorem registered_beside : Beside m.type.name base m.registered (m.on both).registered := by
  unfold registered
  rw [entry_beside h]
  exact (joined_beside h).register _

theorem settled_beside : Beside m.type.name base m.settled (m.on both).settled := by
  unfold settled
  rw [old?_beside h, extension_beside h]
  split
  · exact (registered_beside h).report _
  · exact registered_beside h

theorem after_beside : Beside m.type.name base m.after (m.on both).after :=
  (settled_beside h).recordImplementations

end TypeMerge

namespace Beside

variable {setting : Setting} {typeName : String} {base alone both : Survey} (h : Beside typeName base alone both)

include h

variable (setting) in
theorem merge (isExtension : Bool) (t : TypeDefinition) (named : t.name = typeName) :
    Beside typeName base (alone.merge setting isExtension t) (both.merge setting isExtension t) := by
  subst named
  exact TypeMerge.after_beside (m := ⟨setting, isExtension, t, alone⟩) h

/-! ## What is inside the type -/

variable (setting) in
theorem sightArguments (kind : TypeKind) (parent field : String) (given : List InputValueDefinition)
    (arguments : Table String InputValue) :
    (given.foldl (sightArgument setting kind parent field) (arguments, both)).1 =
        (given.foldl (sightArgument setting kind parent field) (arguments, alone)).1 ∧
      Beside typeName base (given.foldl (sightArgument setting kind parent field) (arguments, alone)).2
        (given.foldl (sightArgument setting kind parent field) (arguments, both)).2 := by
  induction given generalizing arguments alone both with
  | nil => exact ⟨rfl, h⟩
  | cons a rest ih =>
    obtain ⟨intake, taken⟩ := h.takeIn setting .argumentDefinition
      s!"{parent}.{field}({a.name}: ...)" .empty a.directives
    rw [List.foldl_cons, List.foldl_cons]
    unfold sightArgument
    dsimp only
    split
    · exact ih (h.report _) arguments
    · rw [intake]
      exact ih (taken.refer _) _

theorem recordExternal (path : String) (isExternal : Bool) :
    Beside typeName base (alone.recordExternal path isExternal) (both.recordExternal path isExternal) := by
  unfold Survey.recordExternal
  split
  · refine { h with externals := fun other => ?_ }
    simp only [OrderedSet.mem_insert, h.externals, or_assoc]
  · exact h

theorem recordFilter (field : String) (operation : Option Operation) (applied : AppliedDirectives) :
    Beside typeName base (alone.recordFilter (coordinates typeName field) operation applied)
      (both.recordFilter (coordinates typeName field) operation applied) := by
  unfold Survey.recordFilter
  split
  · refine { h with filters := fun path => ?_, ownFilters := fun path member => ?_ }
    · rw [Table.get?_insert, Table.get?_insert, h.filters]
      split <;> rfl
    · rcases Table.mem_keys_upsert.mp member with before | rfl
      · exact h.ownFilters path before
      · exact ⟨field, rfl⟩
  · exact h

theorem recordFieldSets (field : String) (applied : AppliedDirectives) :
    Beside typeName base (alone.recordFieldSets typeName field applied)
      (both.recordFieldSets typeName field applied) := by
  have own : both.fieldSets.get? typeName = alone.fieldSets.get? typeName := by
    rw [h.fieldSets, h.unseen, Option.or_none]
  unfold Survey.recordFieldSets
  dsimp only
  split
  · exact h
  · refine { h with fieldSets := fun name => ?_, ownFieldSets := fun name member => ?_ }
    · rw [Table.get?_upsert, Table.get?_upsert, own, h.fieldSets]
      split <;> rfl
    · exact (Table.mem_keys_upsert.mp member).elim (h.ownFieldSets name) id

theorem bindEvents (canonicalName field : String) (applied : AppliedDirectives)
    (arguments : Table String InputValue) :
    Beside typeName base (alone.bindEvents canonicalName field applied arguments)
      (both.bindEvents canonicalName field applied arguments) := by
  refine h.foldl _ fun d alone both h => ?_
  split
  · exact h.report _
  · next binding _ =>
    refine { h with bindings := fun name => ?_ }
    have here := h.bindings canonicalName
    unfold Table.getD at here
    rw [Table.getD_upsert, Table.getD_upsert, h.bindings]
    split
    · next same => rw [here, same, List.append_assoc]; rfl
    · rfl

end Beside

/-! A declaration of a field goes through the same stages beside what is known as alone. -/

namespace FieldMerge

variable {base both : Survey} {m : FieldMerge} (h : Beside m.parent base m.before both)

include h

theorem taken_beside :
    (m.on both).taken.1 = m.taken.1 ∧ Beside m.parent base m.taken.2 (m.on both).taken.2 :=
  h.takeIn ..

theorem applied_beside : (m.on both).applied = m.applied := congrArg Intake.accepted (taken_beside h).1

theorem isExternal_beside : (m.on both).isExternal = m.isExternal := by
  unfold isExternal
  rw [applied_beside h]
  rfl

theorem admitted_beside : Beside m.parent base m.admitted (m.on both).admitted := by
  obtain ⟨intake, taken⟩ := taken_beside h
  have overridden : Beside m.parent base
      (m.taken.2.recordOverrides m.canonicalName m.declaration.name m.taken.1)
      ((m.on both).taken.2.recordOverrides m.canonicalName m.declaration.name m.taken.1) := { taken with }
  unfold admitted
  rw [intake]
  exact overridden.authorize ..

theorem argued_beside :
    (m.on both).argued.1 = m.argued.1 ∧ Beside m.parent base m.argued.2 (m.on both).argued.2 :=
  (admitted_beside h).sightArguments ..

theorem noted_beside : Beside m.parent base m.noted (m.on both).noted := by
  unfold noted filtered marked
  rw [isExternal_beside h, applied_beside h]
  exact ((((argued_beside h).2.refer _).recordExternal _ _).recordFilter _ _ _).recordFieldSets _ _

theorem bound_beside : Beside m.parent base m.bound (m.on both).bound := by
  have bound := (noted_beside h).bindEvents m.canonicalName m.declaration.name m.applied m.argued.1
  unfold FieldMerge.bound
  rw [existing?_on, applied_beside h, (argued_beside h).1]
  split
  · exact noted_beside h
  · exact { bound with }

theorem field_beside : (m.on both).field = m.field := by
  unfold field
  rw [applied_beside h, (argued_beside h).1, isExternal_beside h]
  rfl

theorem after_beside : Beside m.parent base m.after (m.on both).after := by
  unfold after
  rw [field_beside h]
  exact (bound_beside h).reshape _

end FieldMerge

namespace Beside

variable {setting : Setting} {typeName : String} {base alone both : Survey} (h : Beside typeName base alone both)

include h

theorem mergeField (entry : TypeEntry) (existing? : Option Field) (f : FieldDefinition) :
    Beside typeName base (alone.mergeField setting typeName entry existing? f)
      (both.mergeField setting typeName entry existing? f) := by
  have merged := FieldMerge.after_beside (m := ⟨setting, typeName, entry, existing?, f, alone⟩) h
  rwa [FieldMerge.after_eq, FieldMerge.after_eq] at merged

theorem sightField (isExtension : Bool) (f : FieldDefinition) :
    Beside typeName base (alone.sightField setting typeName isExtension f)
      (both.sightField setting typeName isExtension f) := by
  unfold Survey.sightField
  rw [h.entry]
  cases alone.types.get? typeName with
  | none => exact h
  | some entry =>
    dsimp only
    cases entry.composite? with
    | none => exact h
    | some composite =>
      dsimp only
      split
      · exact h
      split
      · exact h.report _
      · exact h.mergeField entry (composite.fields.get? f.name) f

theorem sightEnumValue (isExtension : Bool) (v : EnumValueDefinition) :
    Beside typeName base (alone.sightEnumValue setting typeName isExtension v)
      (both.sightEnumValue setting typeName isExtension v) := by
  unfold Survey.sightEnumValue
  rw [h.entry]
  split
  · next values _ =>
    obtain ⟨intake, taken⟩ := h.takeIn setting .enumValue (coordinates typeName v.name)
      (((values.get? v.name).map EnumValue.directives).getD .empty) v.directives
    dsimp only
    split
    · exact h.report _
    · rw [intake]
      exact taken.reshape _
  · exact h

theorem sightInputValue (isExtension : Bool) (v : InputValueDefinition) :
    Beside typeName base (alone.sightInputValue setting typeName isExtension v)
      (both.sightInputValue setting typeName isExtension v) := by
  unfold Survey.sightInputValue
  rw [h.entry]
  split
  · next fields _ =>
    obtain ⟨intake, taken⟩ := h.takeIn setting .inputFieldDefinition (coordinates typeName v.name)
      (((fields.get? v.name).map InputValue.directives).getD .empty) v.directives
    dsimp only
    split
    · exact h.report _
    · rw [intake]
      exact (taken.refer _).reshape _
  · exact h

variable (setting) in
theorem sightChildren (isExtension : Bool) (t : TypeDefinition) (named : t.name = typeName) :
    Beside typeName base (alone.sightChildren setting isExtension t) (both.sightChildren setting isExtension t) := by
  subst named
  unfold Survey.sightChildren
  cases t.body with
  | enum values => exact h.foldl values fun v _ _ h => h.sightEnumValue isExtension v
  | inputObject fields => exact h.foldl fields fun v _ _ h => h.sightInputValue isExtension v
  | interface _ fields | object _ fields => exact h.foldl fields fun f _ _ h => h.sightField isExtension f
  | scalar | union => exact h

theorem sightType (isExtension : Bool) (t : TypeDefinition) (named : t.name = typeName) :
    Beside typeName base (alone.sightType setting isExtension t) (both.sightType setting isExtension t) := by
  have kind : both.types.kind? t.name = alone.types.kind? t.name := by
    unfold Registry.kind?
    rw [named, h.entry]
  have merged := (h.merge setting isExtension t named).sightChildren setting isExtension t named
  unfold Survey.sightType
  rw [kind]
  split
  · exact h
  split
  · exact merged
  split
  · exact merged
  · exact h.report _

end Beside

end Survey

end Federation
