import Federation.Proofs.Document.Definition
import Federation.Proofs.Registry.Growth
import Federation.Proofs.Schema.Legible
import Federation.Proofs.Survey.Orderly

/-!
# Legible documents

Where all statements are legible, so is the document of the subgraph: every name and every constant in it is taken over
from the statements, from the catalogue, or from the names of directives for requirements.
-/

namespace Federation

open Schema
open Grammar (Token)

variable (p : Value → Bool)

/-! ## What is kept of legible syntax -/

namespace AppliedDirectives

def Legible (applied : AppliedDirectives) : Prop := ∀ name, ∀ d ∈ applied.named name, d.isLegible p = true

variable {p}

theorem legible_empty : Legible p .empty := by
  intro name d h
  simp at h

theorem Legible.add {applied : AppliedDirectives} (before : applied.Legible p) {d : Directive}
    (legible : d.isLegible p = true) : (applied.add d).Legible p := by
  intro name e h
  rw [named_add] at h
  split at h
  · rcases List.mem_append.mp h with old | new
    · exact before d.name e old
    · exact List.mem_singleton.mp new ▸ legible
  · exact before name e h

theorem Legible.flatten {applied : AppliedDirectives} (legible : applied.Legible p) :
    ∀ d ∈ applied.flatten, d.isLegible p = true := by
  intro d h
  obtain ⟨name, inside⟩ := mem_flatten.mp h
  exact legible name d inside

end AppliedDirectives

section Kept

variable {p} {setting : Setting} {location : Location} {hostPath : String}

theorem Intake.legible_kept {before : AppliedDirectives} (old : before.Legible p) {applied : List Directive}
    (legible : ∀ d ∈ applied, d.isLegible p = true) : (kept setting location hostPath before applied).Legible p := by
  refine List.foldlRecOn (motive := fun i : Intake => i.accepted.Legible p) applied _ old fun i so_far d h => ?_
  rcases accepted_step setting location hostPath i d with same | ⟨-, -, added⟩
  · exact same ▸ so_far
  · exact added ▸ so_far.add (legible d h)

end Kept

structure InputValue.Legible (v : InputValue) : Prop where
  type : v.type.isLegible = true
  default : ∀ c ∈ v.default?, p c = true
  directives : v.directives.Legible p

structure Field.Legible (f : Field) : Prop where
  type : f.type.isLegible = true
  arguments : ∀ name v, f.arguments.get? name = some v → Token.isName name = true ∧ v.Legible p
  directives : f.directives.Legible p

def Shape.Legible : Shape → Prop
  | .enum values => ∀ name v, values.get? name = some v →
      Token.isName name = true ∧ name ∉ Value.reserved ∧ v.directives.Legible p
  | .inputObject fields => ∀ name v, fields.get? name = some v → Token.isName name = true ∧ v.Legible p
  | .interface c | .object c =>
      (∀ name f, c.fields.get? name = some f → Token.isName name = true ∧ f.Legible p) ∧
        ∀ name ∈ c.implements.toList, Token.isName name = true
  | .scalar => True
  | .union members => ∀ name ∈ members.toList, Token.isName name = true

structure TypeEntry.Legible (entry : TypeEntry) : Prop where
  directives : entry.directives.Legible p
  shape : entry.shape.Legible p

variable {p}

theorem InputValueDefinition.isLegible_iff {v : InputValueDefinition} : v.isLegible p = true ↔
    Token.isName v.name = true ∧ v.type.isLegible = true ∧ (∀ c ∈ v.default?, p c = true) ∧
      ∀ d ∈ v.directives, d.isLegible p = true := by
  simp only [InputValueDefinition.isLegible, Bool.and_eq_true, Option.all_eq_true, List.all_eq_true, and_assoc,
    Option.mem_def]

namespace Table

variable {κ β : Type} [DecidableEq κ]

/-- What holds of all entries holds after one more. -/
theorem forall_insert {t : Table κ β} {P : κ → β → Prop} (before : ∀ k v, t.get? k = some v → P k v) {k : κ} {v : β}
    (new : P k v) : ∀ k' v', (t.insert k v).get? k' = some v' → P k' v' := by
  intro k' v' found
  rw [get?_insert] at found
  split at found
  · next same =>
    obtain rfl := Option.some.inj found
    exact same ▸ new
  · exact before k' v' found

end Table

namespace InputValue

variable {setting : Setting} {location : Location} {hostPath : String}

theorem legible_declared {v : InputValueDefinition} (legible : v.isLegible p = true) :
    (declared setting location hostPath v).Legible p := by
  obtain ⟨-, type, default, directives⟩ := InputValueDefinition.isLegible_iff.mp legible
  exact ⟨type, default, Intake.legible_kept AppliedDirectives.legible_empty directives⟩

end InputValue

/-- The directives that a host had before, if it was there. -/
theorem legible_getD {α : Type} {directives : α → AppliedDirectives} {old? : Option α}
    (old : ∀ x, old? = some x → (directives x).Legible p) : ((old?.map directives).getD .empty).Legible p := by
  cases old? with
  | none => exact AppliedDirectives.legible_empty
  | some x => exact old x rfl

namespace Field

variable {setting : Setting} {parent : String}

theorem legible_joinArguments {field : String} {as : List InputValueDefinition}
    (legible : ∀ a ∈ as, a.isLegible p = true) {arguments : Table String InputValue}
    (before : ∀ name v, arguments.get? name = some v → Token.isName name = true ∧ v.Legible p) :
    ∀ name v, (as.foldl (joinArgument setting parent field) arguments).get? name = some v →
      Token.isName name = true ∧ v.Legible p := by
  refine List.foldlRecOn (motive := fun t : Table String InputValue =>
    ∀ name v, t.get? name = some v → Token.isName name = true ∧ v.Legible p) as _ before fun t so_far a h => ?_
  unfold joinArgument
  split
  · exact so_far
  · have named := (InputValueDefinition.isLegible_iff.mp (legible a h)).1
    exact Table.forall_insert so_far ⟨named, InputValue.legible_declared (legible a h)⟩

theorem legible_declared {isParentExternal : Bool} {existing? : Option Field} {f : FieldDefinition}
    (old : ∀ field, existing? = some field → field.Legible p) (legible : f.isLegible p = true) :
    (declared setting parent isParentExternal existing? f).Legible p := by
  simp only [FieldDefinition.isLegible, Bool.and_eq_true, List.all_eq_true] at legible
  obtain ⟨⟨⟨-, arguments⟩, type⟩, directives⟩ := legible
  have before : ((existing?.map Field.directives).getD .empty).Legible p :=
    legible_getD fun field found => (old field found).directives
  have kept : (Intake.kept setting .fieldDefinition (coordinates parent f.name)
      ((existing?.map Field.directives).getD .empty) f.directives).Legible p := Intake.legible_kept before directives
  have there : ∀ name v, ((existing?.map Field.arguments).getD .empty).get? name = some v →
      Token.isName name = true ∧ v.Legible p := by
    cases existing? with
    | none => simp
    | some field => exact (old field rfl).arguments
  have joined : ∀ name v, (f.arguments.foldl (joinArgument setting parent f.name)
      ((existing?.map Field.arguments).getD .empty)).get? name = some v → Token.isName name = true ∧ v.Legible p :=
    legible_joinArguments arguments there
  cases existing? with
  | none => exact ⟨type, joined, kept⟩
  | some field => exact ⟨(old field rfl).type, joined, kept⟩

end Field

namespace TypeEntry

variable {setting : Setting} {isExtension : Bool}

/-- A composite type of a legible entry, with one more field. -/
theorem Legible.insertField {entry : TypeEntry} (before : entry.Legible p) {name : String} {field : Field}
    (named : Token.isName name = true) (legible : field.Legible p) :
    TypeEntry.Legible p { entry with
      shape := entry.shape.mapComposite fun c => { c with fields := c.fields.insert name field } } := by
  refine ⟨before.directives, ?_⟩
  have inside := before.shape
  cases shape : entry.shape with
  | interface c | object c =>
    rw [shape] at inside
    exact ⟨Table.forall_insert inside.1 ⟨named, legible⟩, inside.2⟩
  | enum | inputObject | scalar | union =>
    rw [shape] at inside
    exact inside

theorem Legible.fields {entry : TypeEntry} (legible : entry.Legible p) {c : Composite}
    (composite : entry.composite? = some c) :
    ∀ name f, c.fields.get? name = some f → Token.isName name = true ∧ f.Legible p := by
  have inside := legible.shape
  obtain ⟨_, _, _, _, shape⟩ := entry
  cases shape with
  | interface c' | object c' => exact Option.some.inj composite ▸ inside.1
  | enum | inputObject | scalar | union => contradiction

theorem legible_withField {parent : String} {entry : TypeEntry} (before : entry.Legible p) {f : FieldDefinition}
    (legible : f.isLegible p = true) : (entry.withField setting parent isExtension f).Legible p := by
  have named : Token.isName f.name = true := by
    simp only [FieldDefinition.isLegible, Bool.and_eq_true] at legible
    exact legible.1.1.1
  unfold withField
  split
  · exact before
  · next c composite =>
    dsimp only
    split
    · exact before
    · split
      · exact before
      · have old : ∀ field, c.fields.get? f.name = some field → field.Legible p :=
          fun field found => (before.fields composite f.name field found).2
        exact before.insertField named (Field.legible_declared old legible)

theorem legible_withEnumValue {parent : String} {entry : TypeEntry} (before : entry.Legible p)
    {v : EnumValueDefinition} (legible : v.isLegible p = true) :
    (entry.withEnumValue setting parent isExtension v).Legible p := by
  simp only [EnumValueDefinition.isLegible, Bool.and_eq_true, List.all_eq_true, decide_eq_true_eq] at legible
  obtain ⟨⟨named, free⟩, directives⟩ := legible
  unfold withEnumValue
  split
  · next values shape =>
    have inside := before.shape
    rw [shape] at inside
    dsimp only
    split
    · exact before
    · have kept : (((values.get? v.name).map EnumValue.directives).getD .empty).Legible p :=
        legible_getD fun old found => (inside v.name old found).2.2
      refine ⟨before.directives, Table.forall_insert inside ⟨named, free, ?_⟩⟩
      exact Intake.legible_kept kept directives
  · exact before

theorem legible_withInputValue {parent : String} {entry : TypeEntry} (before : entry.Legible p)
    {v : InputValueDefinition} (legible : v.isLegible p = true) :
    (entry.withInputValue setting parent isExtension v).Legible p := by
  obtain ⟨named, -, -, directives⟩ := InputValueDefinition.isLegible_iff.mp legible
  unfold withInputValue
  split
  · next fields shape =>
    have inside := before.shape
    rw [shape] at inside
    dsimp only
    split
    · exact before
    · refine ⟨before.directives, Table.forall_insert inside ⟨named, ?_⟩⟩
      cases found : fields.get? v.name with
      | none => exact InputValue.legible_declared legible
      | some old =>
        have legibleOld := (inside v.name old found).2
        exact ⟨legibleOld.type, legibleOld.default, Intake.legible_kept legibleOld.directives directives⟩
  · exact before

theorem legible_foldl {α : Type} {grow : TypeEntry → α → TypeEntry} {xs : List α} {entry : TypeEntry}
    (before : entry.Legible p) (one : ∀ entry, entry.Legible p → ∀ x ∈ xs, (grow entry x).Legible p) :
    (xs.foldl grow entry).Legible p :=
  List.foldlRecOn (motive := TypeEntry.Legible p) xs grow before one

theorem legible_withChildren {t : TypeDefinition} (legible : t.body.isLegible p = true) {entry : TypeEntry}
    (before : entry.Legible p) : (entry.withChildren setting isExtension t).Legible p := by
  unfold withChildren
  cases body : t.body with
  | enum values =>
    simp only [body, TypeBody.isLegible, List.all_eq_true] at legible
    exact legible_foldl before fun _ so_far v h => legible_withEnumValue so_far (legible v h)
  | inputObject fields =>
    simp only [body, TypeBody.isLegible, List.all_eq_true] at legible
    exact legible_foldl before fun _ so_far v h => legible_withInputValue so_far (legible v h)
  | interface _ fields | object _ fields =>
    simp only [body, TypeBody.isLegible, Bool.and_eq_true, List.all_eq_true] at legible
    exact legible_foldl before fun _ so_far f h => legible_withField so_far (legible.2 f h)
  | scalar | union => exact before

theorem legible_ofKind (kind : TypeKind) : (Shape.ofKind kind).Legible p := by
  cases kind with
  | scalar => trivial
  | interface | object => exact ⟨nofun, nofun⟩
  | enum | inputObject | union => exact nofun

/-- The names that a type lists are names of the grammar. -/
theorem isName_of_mem_listedNames {b : TypeBody} (legible : b.isLegible p = true) :
    ∀ name ∈ b.listedNames, Token.isName name = true := by
  cases b with
  | interface implements fields | object implements fields =>
    simp only [TypeBody.isLegible, Bool.and_eq_true, List.all_eq_true] at legible
    exact legible.1
  | union members =>
    simp only [TypeBody.isLegible, List.all_eq_true] at legible
    exact legible
  | enum | inputObject | scalar => simp [TypeBody.listedNames]

theorem legible_list {shape : Shape} (before : shape.Legible p) {names : List String}
    (named : ∀ name ∈ names, Token.isName name = true) : (shape.list names).Legible p := by
  have join {listed : NameSet} (old : ∀ name ∈ listed.toList, Token.isName name = true) :
      ∀ name ∈ (listed.insertAll names).toList, Token.isName name = true := by
    intro name h
    rcases OrderedSet.mem_insertAll.mp h with there | new
    · exact old name there
    · exact named name new
  cases shape with
  | interface c | object c => exact ⟨before.1, join before.2⟩
  | union members => exact join before
  | enum | inputObject | scalar => exact before

theorem legible_joined {t : TypeDefinition} (legible : t.isLegible p = true) {old? : Option TypeEntry}
    (old : ∀ entry, old? = some entry → entry.Legible p) : (joined setting isExtension t old?).Legible p := by
  simp only [TypeDefinition.isLegible, Bool.and_eq_true, List.all_eq_true] at legible
  obtain ⟨⟨-, directives⟩, body⟩ := legible
  unfold joined
  dsimp only
  refine ⟨?_, legible_list ?_ (isName_of_mem_listedNames body)⟩
  · rw [directives_sighted]
    exact Intake.legible_kept (legible_getD fun entry found => (old entry found).directives) directives
  · rw [shape_sighted]
    cases old? with
    | none => exact legible_ofKind t.kind
    | some entry => exact (old entry rfl).shape

/-- What is made of legible sightings is legible. -/
theorem legible_ofSightings {xs : List Sighting} (legible : ∀ x ∈ xs, x.type.isLegible p = true) :
    ∀ entry, ofSightings setting xs = some entry → entry.Legible p := by
  refine List.foldlRecOn (motive := fun old? : Option TypeEntry => ∀ entry, old? = some entry → entry.Legible p)
    xs _ nofun fun old? so_far x h => ?_
  unfold grown
  split
  · rintro _ ⟨rfl⟩
    have body : x.type.body.isLegible p = true := by
      have := legible x h
      simp only [TypeDefinition.isLegible, Bool.and_eq_true] at this
      exact this.2
    exact legible_withChildren body (legible_joined (legible x h) so_far)
  · exact so_far

end TypeEntry

/-! ## Settings and surveys -/

theorem Sighting.isLegible_of_mem_all {statements : List Statement}
    (legible : ∀ x ∈ statements, x.isLegible p = true) {typeName : String} {x : Sighting}
    (sighted : x ∈ Sighting.all statements typeName) : x.type.isLegible p = true ∧ x.type.name = typeName := by
  obtain ⟨y, h, seen⟩ := List.mem_filterMap.mp sighted
  have legible := legible y h
  rcases y with (_ | _ | t) | _ | t
  case define.type | extendType =>
    dsimp only [Statement.sighting?] at seen
    split at seen
    · next here =>
      obtain rfl := Option.some.inj seen
      simp only [Bool.and_eq_true, decide_eq_true_eq] at here
      exact ⟨legible, here.1⟩
    · contradiction
  all_goals exact nomatch seen

/-- Every registered type has a name of the grammar and a legible entry. -/
theorem Survey.legible_walk {setting : Setting} {errors : List Error} {statements : List Statement}
    (legible : ∀ x ∈ statements, x.isLegible p = true) {typeName : String} {entry : TypeEntry}
    (found : (walk setting errors statements).types.get? typeName = some entry) :
    Token.isName typeName = true ∧ entry.Legible p := by
  rw [get?_walk] at found
  refine ⟨?_, TypeEntry.legible_ofSightings (fun x h => (Sighting.isLegible_of_mem_all legible h).1) entry found⟩
  cases sightings : Sighting.all statements typeName with
  | nil =>
    rw [sightings] at found
    contradiction
  | cons x rest =>
    obtain ⟨type, here⟩ := Sighting.isLegible_of_mem_all legible (sightings ▸ List.mem_cons_self)
    simp only [TypeDefinition.isLegible, Bool.and_eq_true] at type
    exact here ▸ type.1.1

theorem Survey.legible_schemaDirectives {setting : Setting} {errors : List Error} {statements : List Statement}
    (legible : ∀ x ∈ statements, x.isLegible p = true) :
    (walk setting errors statements).schemaDirectives.Legible p := by
  refine List.foldlRecOn (motive := fun s : Survey => s.schemaDirectives.Legible p) statements _
    AppliedDirectives.legible_empty fun s so_far x h => ?_
  have schema (d : SchemaDefinition) (legible : d.isLegible p = true) :
      (s.sightSchema setting d).schemaDirectives.Legible p := by
    simp only [SchemaDefinition.isLegible, Bool.and_eq_true, List.all_eq_true] at legible
    dsimp only [sightSchema, takeIn]
    rw [Intake.accepted_run]
    exact Intake.legible_kept so_far legible.1
  rcases x with (_ | d | t) | d | t
  · exact so_far
  · exact schema d (legible _ h)
  · exact ((writes_sightType setting s false t).same .schemaDirectives (by decide)).symm ▸ so_far
  · exact schema d (legible _ h)
  · exact ((writes_sightType setting s true t).same .schemaDirectives (by decide)).symm ▸ so_far

/-- What a setting has taken over from legible statements. -/
structure Setting.Legible (p : Value → Bool) (s : Setting) : Prop where
  directives : ∀ name d, s.customDirectives.get? name = some d → d.isLegible p = true
  roots : ∀ operation name, s.roots.byOperation.get? operation = some name → Token.isName name = true

theorem Overview.legible_declareRoots {roots : RootTypes}
    (before : ∀ operation name, roots.byOperation.get? operation = some name → Token.isName name = true)
    {d : SchemaDefinition} (legible : d.isLegible p = true) :
    ∀ operation name, (declareRoots roots d).1.byOperation.get? operation = some name → Token.isName name = true := by
  simp only [SchemaDefinition.isLegible, Bool.and_eq_true, List.all_eq_true] at legible
  have named : ∀ root ∈ rootsOf d, Token.isName root.2 = true := by
    intro root h
    obtain ⟨operation, -, found⟩ := List.mem_filterMap.mp h
    exact legible.2 root (List.mem_of_find?_eq_some found)
  refine List.foldlRecOn (motive := fun acc : RootTypes × List Error =>
    ∀ operation name, acc.1.byOperation.get? operation = some name → Token.isName name = true) (rootsOf d) _ before
      fun acc so_far root h => ?_
  unfold declareRoot RootTypes.declare
  dsimp only
  split
  · exact so_far
  · split
    · exact so_far
    · exact Table.forall_insert so_far (named root h)

theorem Setting.legible_of {subgraph : String} {maxOrScopes : Nat} {statements : List Statement}
    (legible : ∀ x ∈ statements, x.isLegible p = true) : (of subgraph maxOrScopes statements).1.Legible p := by
  refine List.foldlRecOn (motive := fun acc : Setting × List Error => acc.1.Legible p) statements _ ⟨nofun, nofun⟩
    fun acc so_far x h => ?_
  have legible := legible x h
  rcases x with (d | d | _) | d | _
  · refine ⟨?_, so_far.roots⟩
    dsimp only [Overview.step]
    unfold Overview.defineDirective
    split
    · exact so_far.directives
    · split
      · exact so_far.directives
      · exact Table.forall_insert so_far.directives legible
  · exact ⟨so_far.directives, Overview.legible_declareRoots so_far.roots legible⟩
  · exact so_far
  · exact ⟨so_far.directives, Overview.legible_declareRoots so_far.roots legible⟩
  · exact so_far

/-! ## Documents -/

namespace Catalogue

theorem isLegible_all : ∀ d ∈ all, d.isLegible Value.isWellNamed = true := by decide +kernel

theorem isLegible_supportTypes : ∀ t ∈ [scalar Vocabulary.fieldSetScalar] ++ [scalar Vocabulary.scopeScalar] ++
    filterTypes, t.isLegible Value.isWellNamed = true := by decide +kernel

end Catalogue

/-- What is written for a requirement lists scopes as strings, whatever they contain. -/
theorem Authorization.Requirement.isLegible_directives (r : Authorization.Requirement) :
    ∀ d ∈ r.directives, d.isLegible Value.isWellNamed = true := by
  intro d h
  unfold directives at h
  rcases List.mem_append.mp h with authenticated | listed
  · split at authenticated
    · exact List.mem_singleton.mp authenticated ▸ (by decide)
    · contradiction
  · split at listed
    · contradiction
    · obtain rfl := List.mem_singleton.mp listed
      have names : Token.isName Vocabulary.requiresScopes = true ∧ Token.isName Vocabulary.scopes = true := by decide
      simp [Directive.isLegible, Value.isLegibleArgument, names, Value.isWellNamed, Value.itemsWellNamed_iff]

namespace Assembly

variable {a : Assembly}

theorem isLegible_inputValueDefinition {name : String} {v : InputValue} (named : Token.isName name = true)
    (legible : v.Legible p) : (inputValueDefinition name v).isLegible p = true :=
  InputValueDefinition.isLegible_iff.mpr ⟨named, legible.type, legible.default, legible.directives.flatten⟩

theorem isLegible_inputValues {t : Table String InputValue}
    (legible : ∀ name v, t.get? name = some v → Token.isName name = true ∧ v.Legible p) :
    ∀ d ∈ t.toList.map fun e => inputValueDefinition e.1 e.2, d.isLegible p = true := by
  intro d h
  obtain ⟨⟨name, v⟩, listed, rfl⟩ := List.mem_map.mp h
  obtain ⟨named, legible⟩ := legible name v (Table.mem_toList.mp listed)
  exact isLegible_inputValueDefinition named legible

theorem isLegible_fieldDefinition {record : Authorization.Record} {name : String} {f : Field}
    (named : Token.isName name = true) (legible : f.Legible Value.isWellNamed) :
    (fieldDefinition record name f).isLegible Value.isWellNamed = true := by
  simp only [FieldDefinition.isLegible, fieldDefinition, Bool.and_eq_true, List.all_eq_true, List.forall_mem_append]
  refine ⟨⟨⟨named, isLegible_inputValues legible.arguments⟩, legible.type⟩, legible.directives.flatten, ?_⟩
  exact Authorization.Requirement.isLegible_directives _

theorem isLegible_typeDefinition {name : String} {entry : TypeEntry} (named : Token.isName name = true)
    (legible : entry.Legible Value.isWellNamed) :
    (a.typeDefinition name entry).isLegible Value.isWellNamed = true := by
  have directives : ∀ d ∈ (a.typeDefinition name entry).directives, d.isLegible Value.isWellNamed = true := by
    intro d h
    dsimp only [typeDefinition] at h
    -- Enums and scalars show what is asked of them behind their own directives.
    split at h
    · rcases List.mem_append.mp h with own | declared
      · exact legible.directives.flatten d own
      · unfold leafDirectives at declared
        split at declared
        · exact Authorization.Requirement.isLegible_directives _ d declared
        · contradiction
    · exact legible.directives.flatten d h
  have composite {c : Composite} {record : Authorization.Record}
      (inside : ∀ field f, c.fields.get? field = some f →
        Token.isName field = true ∧ f.Legible Value.isWellNamed) :
      ∀ d ∈ c.fields.toList.map fun e => fieldDefinition record e.1 e.2, d.isLegible Value.isWellNamed = true := by
    intro d h
    obtain ⟨⟨field, f⟩, listed, rfl⟩ := List.mem_map.mp h
    obtain ⟨named, legible⟩ := inside field f (Table.mem_toList.mp listed)
    exact isLegible_fieldDefinition named legible
  have body : (a.typeDefinition name entry).body.isLegible Value.isWellNamed = true := by
    have inside := legible.shape
    dsimp only [typeDefinition]
    cases shape : entry.shape with
    | enum values =>
      rw [shape] at inside
      simp only [TypeBody.isLegible, List.all_eq_true, List.forall_mem_map]
      intro e listed
      obtain ⟨named, free, kept⟩ := inside e.1 e.2 (Table.mem_toList.mp listed)
      simp only [EnumValueDefinition.isLegible, enumValueDefinition, Bool.and_eq_true, List.all_eq_true]
      exact ⟨⟨named, decide_eq_true free⟩, kept.flatten⟩
    | inputObject fields =>
      rw [shape] at inside
      exact List.all_eq_true.mpr (isLegible_inputValues inside)
    | interface c | object c =>
      rw [shape] at inside
      simp only [TypeBody.isLegible, Bool.and_eq_true, List.all_eq_true]
      exact ⟨inside.2, composite inside.1⟩
    | scalar => rfl
    | union members =>
      rw [shape] at inside
      exact List.all_eq_true.mpr inside
  simp only [TypeDefinition.isLegible, Bool.and_eq_true, List.all_eq_true]
  exact ⟨⟨named, directives⟩, body⟩

/-- Legible statements make a legible document. -/
theorem isLegible_document {subgraph : String} {maxOrScopes : Nat} {statements : List Statement}
    (legible : ∀ x ∈ statements, x.isLegible Value.isWellNamed = true) :
    ∀ d ∈ (Assembly.of subgraph maxOrScopes statements).document, d.isLegible Value.isWellNamed = true := by
  have setting : (Setting.of subgraph maxOrScopes statements).1.Legible Value.isWellNamed := Setting.legible_of legible
  unfold document
  simp only [List.forall_mem_append, List.forall_mem_map]
  refine ⟨⟨⟨⟨?_, ?_⟩, ?_⟩, ?_⟩, ?_⟩
  · exact fun d h => Catalogue.isLegible_all d (cataloguedDirectives_sublist.subset h)
  · exact fun t h => Catalogue.isLegible_supportTypes t (supportTypes_sublist.subset h)
  · intro d h
    obtain ⟨⟨name, d⟩, listed, rfl⟩ := List.mem_map.mp h
    exact setting.directives name d (Table.mem_toList.mp listed)
  · intro s h
    unfold schemaDefinition? at h
    split at h
    · simp at h
    · obtain rfl := List.mem_singleton.mp h
      simp only [Definition.isLegible, SchemaDefinition.isLegible, Bool.and_eq_true, List.all_eq_true]
      exact ⟨(Survey.legible_schemaDirectives legible).flatten,
        fun root listed => setting.roots root.1 root.2 (Table.mem_toList.mp listed)⟩
  · intro e h
    obtain ⟨named, entry⟩ := Survey.legible_walk legible (mem_ownTypes.mp h).1
    exact isLegible_typeDefinition named entry

end Assembly

end Federation
