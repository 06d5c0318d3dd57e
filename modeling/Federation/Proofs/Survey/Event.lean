import Federation.Proofs.Event.Binding
import Federation.Proofs.Registry.Growth
import Federation.Proofs.Survey.Coherence

/-!
# Event bindings that a survey records

In a survey without errors the fields of a type keep the event directives of all their sightings. Bindings are made of
the directives of their first sightings alone, in the order in which the fields arrive.
-/

namespace Federation

open Schema

/-- The event directives on a declaration of a field. -/
def Schema.FieldDefinition.events (f : FieldDefinition) : List Directive := f.directives.filter Event.isEvent

namespace Survey

/-! ## What a declaration of a field records -/

/-- Without errors each event directive is bound as it is written. -/
theorem getD_bindEvents {canonicalName field : String} {arguments : Table String InputValue} {s : Survey}
    {applied : AppliedDirectives} (clean : (s.bindEvents canonicalName field applied arguments).errors = [])
    (other : String) : (s.bindEvents canonicalName field applied arguments).bindings.getD other [] =
      s.bindings.getD other [] ++
        if other = canonicalName then (Event.directives applied).map (Event.declaredBinding field) else [] := by
  unfold bindEvents at clean ⊢
  generalize Event.directives applied = ds at clean ⊢
  induction ds generalizing s with
  | nil => simp
  | cons d rest ih =>
    rw [List.foldl_cons] at clean ⊢
    rw [ih clean]
    cases bound : Event.bind field arguments d with
    | error faults =>
      -- The error would still be there at the end.
      simp only [bound] at clean
      refine absurd ((Grows.foldl _ (fun s d => ?_) rest _).clean clean) (by simp [report])
      split
      · exact (annotates_report s _).grows
      · exact ⟨List.prefix_refl _, fun _ => rfl⟩
    | ok binding =>
      obtain rfl := Event.eq_declaredBinding_of_bind bound
      dsimp only
      rw [Table.getD_upsert]
      split
      · next same => simp [same, Table.getD]
      · simp

/-- Whatever is reported, each new binding was made from a directive that is in order. -/
theorem mem_bindEvents {canonicalName field : String} {arguments : Table String InputValue} {s : Survey}
    {applied : AppliedDirectives} {other : String} {b : Event.Binding}
    (bound : b ∈ (s.bindEvents canonicalName field applied arguments).bindings.getD other []) :
    b ∈ s.bindings.getD other [] ∨
      other = canonicalName ∧ ∃ d ∈ Event.directives applied, Event.bind field arguments d = .ok b := by
  revert bound
  -- Over the directives: one that has faults binds nothing, any other appends its binding.
  refine List.foldlRecOn (motive := fun s' : Survey => b ∈ s'.bindings.getD other [] → _) _ _ .inl
    fun s' before d listed bound => ?_
  split at bound
  · exact before bound
  · next binding made =>
    dsimp only at bound
    rw [Table.getD_upsert] at bound
    split at bound
    · next same =>
      rcases List.mem_append.mp bound with earlier | new
      · exact before (same ▸ earlier)
      · exact .inr ⟨same, d, listed, List.mem_singleton.mp new ▸ made⟩
    · exact before bound

/-- What a declaration of a field records of events and keys. -/
structure RecordsField (setting : Setting) (parent : String) (existing? : Option Field) (f : FieldDefinition)
    (s s' : Survey) : Prop where
  keySets : s'.keySets = s.keySets
  /-- Without errors the first declaration of a field is bound, and later ones are not. -/
  bindings : s'.errors = [] → ∀ other, s'.bindings.getD other [] = s.bindings.getD other [] ++
    if existing?.isNone = true ∧ other = setting.roots.canonicalName parent then
      (Event.directives (s.takeIn setting .fieldDefinition (coordinates parent f.name)
        ((existing?.map Field.directives).getD .empty) f.directives).1.accepted).map (Event.declaredBinding f.name)
    else []
  /-- Whatever is reported, each new binding is in order for the arguments of the first declaration. -/
  bound : ∀ other, ∀ b ∈ s'.bindings.getD other [], b ∈ s.bindings.getD other [] ∨
    existing? = none ∧ other = setting.roots.canonicalName parent ∧
      ∃ d ∈ Event.directives (Intake.kept setting .fieldDefinition (coordinates parent f.name) .empty f.directives),
        Event.bind f.name (f.arguments.foldl (Field.joinArgument setting parent f.name) .empty) d = .ok b

namespace FieldMerge

variable (m : FieldMerge)

theorem bindings_noted : m.noted.bindings = m.before.bindings := calc
  m.noted.bindings = m.argued.2.bindings := m.writes_records.same .bindings (by decide)
  _ = m.admitted.bindings := m.writes_argued.same .bindings (by decide)
  _ = m.before.bindings := m.writes_admitted.same .bindings (by decide)

theorem recordsField : RecordsField m.setting m.parent m.existing? m.declaration m.before m.after := by
  have kept : m.after.keySets = m.before.keySets := m.writes.same .keySets (by decide)
  have after : m.after.bindings = m.bound.bindings := m.writes_after.same .bindings (by decide)
  have noted := m.bindings_noted
  -- Only a field that was not there before binds its events.
  cases new : m.existing? with
  | some old =>
    have bound : m.bound = m.noted := by rw [FieldMerge.bound, new]
    rw [bound, noted] at after
    exact ⟨kept, fun _ other => by simp [after], fun other b listed => .inl (by rwa [← after])⟩
  | none =>
    have bound : m.bound.bindings =
        (m.noted.bindEvents m.canonicalName m.declaration.name m.applied m.argued.1).bindings := by
      rw [FieldMerge.bound, new]
    have errors : m.after.errors =
        (m.noted.bindEvents m.canonicalName m.declaration.name m.applied m.argued.1).errors := by
      rw [m.writes_after.same .errors (by decide), FieldMerge.bound, new]
    refine ⟨kept, fun clean other => ?_, fun other b listed => ?_⟩
    · rw [after, bound, getD_bindEvents (errors ▸ clean), noted]
      simp [FieldMerge.applied, taken, new, canonicalName]
    · rw [after, bound] at listed
      have made := mem_bindEvents listed
      rw [noted, m.applied_eq, m.arguments_eq, new] at made
      exact made.imp_right fun made => ⟨rfl, made⟩

end FieldMerge

theorem recordsField_mergeField (setting : Setting) (s : Survey) (parent : String) (entry : TypeEntry)
    (existing? : Option Field) (f : FieldDefinition) :
    RecordsField setting parent existing? f s (s.mergeField setting parent entry existing? f) := by
  have recorded := FieldMerge.recordsField ⟨setting, parent, entry, existing?, f, s⟩
  rwa [FieldMerge.after_eq] at recorded

end Survey

/-! ## The whole survey -/

namespace Look

/-- The declaration with which a look sights a field. -/
def sighted (setting : Setting) (typeName name : String) : Look → List FieldDefinition
  | .field _ t f => if t.name = typeName ∧ f.name = name ∧ isServed setting t f = false then [f] else []
  | .schema _ | .type .. | .enumValue .. | .inputValue .. => []

/-- The sightings of a field among what was looked at. -/
def sightings (setting : Setting) (typeName name : String) (past : List Look) : List FieldDefinition :=
  past.flatMap (sighted setting typeName name)

theorem sightings_append_one (setting : Setting) (typeName name : String) (past : List Look) (l : Look) :
    sightings setting typeName name (past ++ [l]) =
      sightings setting typeName name past ++ sighted setting typeName name l := by
  simp [sightings]

end Look

namespace Survey

/-- What is recorded of the events of a type agrees with what was looked at. -/
structure RecordsEvents (setting : Setting) (typeName : String) (past : List Look) (s : Survey) : Prop where
  directives : ∀ name field, s.types.field? typeName name = some field → Event.directives field.directives =
    (Look.sightings setting typeName name past).flatMap FieldDefinition.events
  /-- Of the sightings of a field the first one counts. -/
  bindings : s.bindings.getD (setting.roots.canonicalName typeName) [] =
    (s.types.fields typeName).keys.flatMap fun name =>
      (((Look.sightings setting typeName name past).take 1).flatMap FieldDefinition.events).map
        (Event.declaredBinding name)

variable {setting : Setting} {s : Survey} {typeName : String} {past : List Look}

theorem sightings_ne_nil (coherent : Coherent setting past s) {name : String}
    (known : (s.types.field? typeName name).isSome = true) : Look.sightings setting typeName name past ≠ [] := by
  obtain ⟨isExtension, t, f, member, type, here, unserved⟩ := (coherent.fields typeName name).mp known
  refine List.ne_nil_of_mem (a := f) (List.mem_flatMap.mpr ⟨_, member, ?_⟩)
  simp [Look.sighted, type, here, unserved]

theorem sightings_eq_nil (coherent : Coherent setting past s) {name : String}
    (unknown : s.types.field? typeName name = none) : Look.sightings setting typeName name past = [] := by
  refine List.flatMap_eq_nil_iff.mpr fun l member => ?_
  cases l with
  | schema | type | enumValue | inputValue => rfl
  | field isExtension t f =>
    refine if_neg fun ⟨type, here, unserved⟩ => ?_
    have known := (coherent.fields typeName name).mpr ⟨isExtension, t, f, member, type, here, unserved⟩
    simp [unknown] at known

theorem recordsEvents_of_eq {s' : Survey} {l : Look} (bindings : s'.bindings = s.bindings)
    (fields : s'.types.fields typeName = s.types.fields typeName)
    (silent : ∀ name, Look.sighted setting typeName name l = []) (before : RecordsEvents setting typeName past s) :
    RecordsEvents setting typeName (past ++ [l]) s' := by
  have same : ∀ name, Look.sightings setting typeName name (past ++ [l]) =
      Look.sightings setting typeName name past := fun name => by
    rw [Look.sightings_append_one, silent, List.append_nil]
  refine ⟨fun name field known => ?_, ?_⟩
  · rw [same]
    rw [Registry.field?_eq, fields, ← Registry.field?_eq] at known
    exact before.directives name field known
  · simp only [bindings, fields, same]
    exact before.bindings

theorem sightings_append_field {isExtension : Bool} {t : TypeDefinition} {f : FieldDefinition}
    (unserved : Look.isServed setting t f = false) (name : String) :
    Look.sightings setting t.name name (past ++ [.field isExtension t f]) =
      Look.sightings setting t.name name past ++ if f.name = name then [f] else [] := by
  simp [Look.sightings_append_one, Look.sighted, unserved]

/-- A field that is not known yet was not looked at, and has no events. -/
theorem RecordsEvents.earlier (before : RecordsEvents setting typeName past s) (coherent : Coherent setting past s)
    (name : String) : Event.directives (((s.types.field? typeName name).map Field.directives).getD .empty) =
      (Look.sightings setting typeName name past).flatMap FieldDefinition.events := by
  cases known : s.types.field? typeName name with
  | none =>
    rw [sightings_eq_nil coherent known]
    rfl
  | some old => exact before.directives name old known

/-- A later sighting of a field does not come first. -/
theorem firstSighting_again {isExtension : Bool} {t : TypeDefinition} {f : FieldDefinition}
    (unserved : Look.isServed setting t f = false) (coherent : Coherent setting past s)
    (known : (s.types.field? t.name f.name).isSome = true) (name : String) :
    (Look.sightings setting t.name name (past ++ [.field isExtension t f])).take 1 =
      (Look.sightings setting t.name name past).take 1 := by
  rw [sightings_append_field unserved]
  split
  · next here =>
    have some := List.length_pos_iff.mpr (sightings_ne_nil coherent (here ▸ known))
    rw [List.take_append_of_le_length some]
  · rw [List.append_nil]

/-- A declaration of a field adds its event directives to those that are there, and only the first one its bindings. -/
theorem recordsEvents_mergeField {isExtension : Bool} {t : TypeDefinition} {f : FieldDefinition} {entry : TypeEntry}
    (composite : (s.types.composite? t.name).isSome = true) (unserved : Look.isServed setting t f = false)
    (clean : (s.mergeField setting t.name entry (s.types.field? t.name f.name) f).errors = [])
    (fresh : s.repeats = .empty) (coherent : Coherent setting past s)
    (before : RecordsEvents setting t.name past s) :
    RecordsEvents setting t.name (past ++ [.field isExtension t f])
      (s.mergeField setting t.name entry (s.types.field? t.name f.name) f) := by
  have merged := mergesField_mergeField setting t.name entry (s.types.field? t.name f.name) f s
  obtain ⟨field, -, directives, fields⟩ := fields_of_mergesField merged composite
  have recorded := (recordsField_mergeField setting s t.name entry (s.types.field? t.name f.name) f).bindings clean
    (setting.roots.canonicalName t.name)
  have taken : Event.directives (s.takeIn setting .fieldDefinition (coordinates t.name f.name)
      (((s.types.field? t.name f.name).map Field.directives).getD .empty) f.directives).1.accepted =
      Event.directives (((s.types.field? t.name f.name).map Field.directives).getD .empty) ++ f.events :=
    Intake.directives_run fresh (merged.intake clean)
  generalize s.mergeField setting t.name entry (s.types.field? t.name f.name) f = s' at fields recorded ⊢
  have fields := fields t.name
  rw [if_pos rfl] at fields
  constructor
  case directives =>
    intro name field' known
    rw [Registry.field?_eq, fields, Table.get?_insert] at known
    rw [sightings_append_field unserved, List.flatMap_append]
    split at known
    · next here =>
      obtain rfl := Option.some.inj known
      rw [directives, here, if_pos rfl, List.flatMap_singleton, ← before.earlier coherent]
      exact taken
    · next other =>
      rw [if_neg (Ne.symm other), List.flatMap_nil, List.append_nil]
      rw [← Registry.field?_eq] at known
      exact before.directives name field' known
  case bindings =>
    rw [recorded, before.bindings, fields, Table.insert, Table.keys_upsert]
    cases known : s.types.field? t.name f.name with
    | some old =>
      have listed : f.name ∈ (s.types.fields t.name).keys := by
        rw [← Table.get?_isSome_iff, ← Registry.field?_eq, known]
        rfl
      rw [if_neg (by simp), List.append_nil, if_pos listed]
      refine List.flatMap_congr fun name _ => ?_
      rw [firstSighting_again unserved coherent (Option.isSome_of_eq_some known)]
    -- A first sighting binds its events, behind those of the fields before it.
    | none =>
      have unlisted : f.name ∉ (s.types.fields t.name).keys := by
        rw [← Table.get?_isSome_iff, ← Registry.field?_eq, known]
        exact Bool.false_ne_true
      rw [if_pos (by simp), if_neg unlisted, List.flatMap_append]
      congr 1
      · refine List.flatMap_congr fun name listed => ?_
        have other : f.name ≠ name := fun same => unlisted (same ▸ listed)
        rw [sightings_append_field unserved, if_neg other, List.append_nil]
      · rw [known] at taken
        have none := sightings_eq_nil coherent known
        rw [List.flatMap_singleton, sightings_append_field unserved, none, if_pos rfl]
        exact congrArg (List.map _) (taken.trans (by simp [Event.directives_empty]))

/-- Nothing is bound under the canonical name of another type. -/
theorem recordsEvents_mergeField_of_ne {isExtension : Bool} {t : TypeDefinition} {f : FieldDefinition}
    {entry : TypeEntry} (other : t.name ≠ typeName)
    (apart : setting.roots.canonicalName t.name ≠ setting.roots.canonicalName typeName)
    (composite : (s.types.composite? t.name).isSome = true)
    (clean : (s.mergeField setting t.name entry (s.types.field? t.name f.name) f).errors = [])
    (before : RecordsEvents setting typeName past s) :
    RecordsEvents setting typeName (past ++ [.field isExtension t f])
      (s.mergeField setting t.name entry (s.types.field? t.name f.name) f) := by
  have merged := mergesField_mergeField setting t.name entry (s.types.field? t.name f.name) f s
  obtain ⟨field, -, -, fields⟩ := fields_of_mergesField merged composite
  have recorded := (recordsField_mergeField setting s t.name entry (s.types.field? t.name f.name) f).bindings
    clean (setting.roots.canonicalName typeName)
  rw [if_neg fun same => apart same.2.symm, List.append_nil] at recorded
  refine ⟨fun name field' known => ?_, ?_⟩
  · rw [Registry.field?_eq, fields, if_neg (Ne.symm other), ← Registry.field?_eq] at known
    rw [Look.sightings_append_one]
    simpa [Look.sighted, other] using before.directives name field' known
  · rw [recorded, fields, if_neg (Ne.symm other), before.bindings]
    simp [Look.sightings_append_one, Look.sighted, other]

theorem recordsEvents_look {l : Look} (follows : l.Follows past) (clean : (s.look setting l).errors = [])
    (fresh : s.repeats = .empty) (coherent : Coherent setting past s)
    (only : ∀ isExtension t f, l = .field isExtension t f →
      setting.roots.canonicalName t.name = setting.roots.canonicalName typeName → t.name = typeName)
    (before : RecordsEvents setting typeName past s) :
    RecordsEvents setting typeName (past ++ [l]) (s.look setting l) := by
  have looked := looked_look setting s l
  generalize s.look setting l = s' at looked clean ⊢
  cases looked with
  | retained _ noField kept written =>
    refine recordsEvents_of_eq (written.same .bindings (by decide)) (kept.fields typeName) (fun name => ?_) before
    cases l with
    | field => exact absurd rfl (noField _ _ _)
    | schema | type | enumValue | inputValue => rfl
  | type =>
    exact recordsEvents_of_eq ((writes_merge ..).same .bindings (by decide))
      (fields_of_mergesType (mergesType_merge ..) typeName) (fun _ => rfl) before
  | conflict | duplicate => simp [report] at clean
  | passed served =>
    refine recordsEvents_of_eq rfl rfl (fun name => ?_) before
    simp [Look.sighted, coherent.isServed_of_passed follows served]
  | @field isExtension t f entry found composite unserved =>
    have composite : (s.types.composite? t.name).isSome = true := by simpa [Registry.composite?, found] using composite
    have unserved := coherent.isServed_of_merged follows found unserved
    by_cases here : t.name = typeName
    · subst here
      exact recordsEvents_mergeField composite unserved clean fresh coherent before
    · exact recordsEvents_mergeField_of_ne here (mt (only isExtension t f rfl) here) composite clean before

/-- A survey that ends without errors records the events of a type whose canonical name no other type has. -/
theorem recordsEvents_walk {statements : List Statement} {errors : List Error}
    (clean : (walk setting errors statements).errors = [])
    (only : ∀ isExtension t f, .field isExtension t f ∈ Look.all statements →
      setting.roots.canonicalName t.name = setting.roots.canonicalName typeName → t.name = typeName) :
    RecordsEvents setting typeName (Look.all statements) (walk setting errors statements) := by
  refine (walk_induction clean (fun past s l member follows now fresh coherent before => ?_)
    ⟨nofun, rfl⟩).2
  exact recordsEvents_look follows now fresh coherent (fun isExtension t f same => only isExtension t f (same ▸ member))
    before

end Survey

end Federation
