import Federation.FieldSet.Selected
import Federation.Proofs.Survey.Merge

/-!
# A survey as a list of looks

A survey that ends without errors looks at everything in the order of the text, and no look depends on
another but through the survey itself. What holds after every look can then be shown look by look.
-/

namespace Federation

open Schema

/-- One thing to look at, with the definition or extension that it stands in. -/
inductive Look
  | schema (definition : SchemaDefinition)
  | type (isExtension : Bool) (t : TypeDefinition)
  | field (isExtension : Bool) (t : TypeDefinition) (f : FieldDefinition)
  | enumValue (isExtension : Bool) (t : TypeDefinition) (v : EnumValueDefinition)
  | inputValue (isExtension : Bool) (t : TypeDefinition) (v : InputValueDefinition)

namespace Look

def inside (isExtension : Bool) (t : TypeDefinition) : List Look :=
  match t.body with
  | .enum values => values.map (.enumValue isExtension t)
  | .inputObject fields => fields.map (.inputValue isExtension t)
  | .interface _ fields | .object _ fields => fields.map (.field isExtension t)
  | .scalar | .union _ => []

def ofType (isExtension : Bool) (t : TypeDefinition) : List Look :=
  if Survey.isReservedType t then [] else .type isExtension t :: inside isExtension t

def ofStatement : Statement → List Look
  | .define (.schema d) | .extendSchema d => [.schema d]
  | .define (.type t) => ofType false t
  | .extendType t => ofType true t
  | .define (.directive _) => []

def all (statements : List Statement) : List Look := statements.flatMap ofStatement

end Look

namespace Survey

def look (setting : Setting) (s : Survey) : Look → Survey
  | .schema d => s.sightSchema setting d
  | .type isExtension t =>
    match s.types.kind? t.name with
    | none => s.merge setting isExtension t
    | some existing =>
      if existing = t.kind then s.merge setting isExtension t
      else s.report (.conflictingKinds t.name existing t.kind)
  | .field isExtension t f => s.sightField setting t.name isExtension f
  | .enumValue isExtension t v => s.sightEnumValue setting t.name isExtension v
  | .inputValue isExtension t v => s.sightInputValue setting t.name isExtension v

/-- From one survey to the other requirements and concrete types stay, and so does what is seen of types
apart from their values. Errors may be added. -/
structure Retains (a b : Survey) : Prop where
  kind? : ∀ typeName, b.types.kind? typeName = a.types.kind? typeName
  composite? : ∀ typeName, b.types.composite? typeName = a.types.composite? typeName
  listedNames : ∀ typeName, b.types.listedNames typeName = a.types.listedNames typeName
  applied : ∀ typeName, b.types.applied typeName = a.types.applied typeName
  ledger : b.ledger = a.ledger
  concrete : b.concrete = a.concrete
  grows : Grows a b

theorem Annotates.retains {a b : Survey} (h : Annotates a b) : Retains a b := by
  refine ⟨?_, ?_, ?_, ?_, h.ledger, h.concrete, h.grows⟩ <;>
    exact fun typeName => by rw [h.types]

/-- A change of shape is not seen where it keeps the kind, what the type consists of as an object or
interface, and the names that it lists. -/
theorem retains_reshape (s : Survey) (typeName : String) (f : Shape → Shape)
    (kind : ∀ shape, (f shape).kind = shape.kind)
    (composite? : ∀ shape, (f shape).composite? = shape.composite?)
    (listedNames : ∀ shape, (f shape).listedNames = shape.listedNames) :
    Retains s (s.reshape typeName f) := by
  -- Every view reads one entry, and only the entry of this type is new.
  have entry : ∀ name, (s.reshape typeName f).types.get? name =
      (s.types.get? name).map fun entry =>
        if name = typeName then { entry with shape := f entry.shape } else entry := by
    intro name
    rw [reshape, Table.get?_adjust]
    split <;> simp
  refine ⟨fun name => ?_, fun name => ?_, fun name => ?_, fun name => ?_, rfl, rfl,
    ⟨List.prefix_refl _, fun _ => rfl⟩⟩
  · unfold Registry.kind?
    rw [entry]
    cases s.types.get? name <;> simp [TypeEntry.kind]
    split <;> simp [kind]
  · unfold Registry.composite?
    rw [entry]
    cases s.types.get? name <;> simp [TypeEntry.composite?]
    split <;> simp [composite?]
  · unfold Registry.listedNames
    rw [entry]
    cases s.types.get? name <;> simp
    split <;> simp [listedNames]
  · unfold Registry.applied
    rw [entry]
    cases s.types.get? name <;> simp
    split <;> rfl

theorem Retains.trans {a b c : Survey} (first : Retains a b) (second : Retains b c) : Retains a c where
  kind? typeName := (second.kind? typeName).trans (first.kind? typeName)
  composite? typeName := (second.composite? typeName).trans (first.composite? typeName)
  listedNames typeName := (second.listedNames typeName).trans (first.listedNames typeName)
  applied typeName := (second.applied typeName).trans (first.applied typeName)
  ledger := second.ledger.trans first.ledger
  concrete := second.concrete.trans first.concrete
  grows := first.grows.trans second.grows

theorem Retains.field? {a b : Survey} (retained : Retains a b) (typeName name : String) :
    b.types.field? typeName name = a.types.field? typeName name := by
  rw [Registry.field?, retained.composite?, Registry.field?]

theorem retains_sightSchema (setting : Setting) (s : Survey) (d : SchemaDefinition) :
    Retains s (s.sightSchema setting d) := by
  have taken := annotates_takeIn setting .schema "schema" s.schemaDirectives d.directives s
  exact Annotates.retains ⟨taken.types, taken.ledger, taken.concrete, taken.grows.errors, taken.grows.repeats⟩

theorem retains_sightEnumValue (setting : Setting) (parent : String) (isExtension : Bool) (s : Survey)
    (v : EnumValueDefinition) : Retains s (s.sightEnumValue setting parent isExtension v) := by
  unfold sightEnumValue
  split
  · next values _ =>
    dsimp only
    split
    · exact (annotates_report s _).retains
    · have taken := annotates_takeIn setting .enumValue (coordinates parent v.name)
        (((values.get? v.name).map EnumValue.directives).getD .empty) v.directives s
      refine taken.retains.trans (retains_reshape _ parent _ ?_ ?_ ?_) <;>
        rintro (_ | _ | _ | _ | _ | _) <;> rfl
  · exact (Annotates.refl s).retains

theorem retains_sightInputValue (setting : Setting) (parent : String) (isExtension : Bool) (s : Survey)
    (v : InputValueDefinition) : Retains s (s.sightInputValue setting parent isExtension v) := by
  unfold sightInputValue
  split
  · next fields _ =>
    dsimp only
    split
    · exact (annotates_report s _).retains
    · have taken := (annotates_takeIn setting .inputFieldDefinition (coordinates parent v.name)
        (((fields.get? v.name).map InputValue.directives).getD .empty) v.directives s).trans
        (.of_writes (writes_refer _ v.type.namedType) (by decide))
      refine taken.retains.trans (retains_reshape _ parent _ ?_ ?_ ?_) <;>
        rintro (_ | _ | _ | _ | _ | _) <;> rfl
  · exact (Annotates.refl s).retains

/-! ## What becomes of a survey with one look -/

/-- A declaration of a field is passed by, reported as a second one, or merged into its registered type. -/
theorem sightField_cases (setting : Setting) (s : Survey) (parent : String) (isExtension : Bool) (f : FieldDefinition) :
    (s.sightField setting parent isExtension f = s ∧ ∀ entry, s.types.get? parent = some entry →
      entry.composite?.isSome = true →
        ((setting.operation? entry.kind parent).isSome && isReservedField f.name) = true) ∨
    (∃ kind, s.sightField setting parent isExtension f =
      s.report (.duplicateChild kind parent (.field f.name))) ∨
    ∃ entry, s.types.get? parent = some entry ∧ entry.composite?.isSome = true ∧
      ((setting.operation? entry.kind parent).isSome && isReservedField f.name) = false ∧
      s.sightField setting parent isExtension f =
        s.mergeField setting parent entry (s.types.field? parent f.name) f := by
  unfold sightField
  split
  · next unregistered => exact .inl ⟨rfl, by simp [unregistered]⟩
  · next entry found =>
    split
    · next none => exact .inl ⟨rfl, by simp [found, none]⟩
    · next c composite =>
      have registered : s.types.field? parent f.name = c.fields.get? f.name := by
        simp [Registry.field?, Registry.composite?, found, composite]
      dsimp only
      split
      · next served => exact .inl ⟨rfl, fun entry' found' _ => Option.some.inj (found.symm.trans found') ▸ served⟩
      · next unserved =>
        split
        · exact .inr (.inl ⟨_, rfl⟩)
        · exact .inr (.inr ⟨entry, found, by simp [composite], Bool.eq_false_iff.mpr unserved, by rw [registered]⟩)

/-- The parts that a look at a schema or at a value inside a type may write. -/
def Part.ofValue : List Part := [.errors, .repeats, .schemaDirectives, .types, .referenced]

/-- What becomes of a survey with a look. -/
inductive Looked (setting : Setting) (s : Survey) : Look → Survey → Prop
  /-- At schemas and values nothing changes of what is seen of types. -/
  | retained {l : Look} {s' : Survey} (noType : ∀ isExtension t, l ≠ .type isExtension t)
      (noField : ∀ isExtension t f, l ≠ .field isExtension t f) (kept : Retains s s')
      (written : Writes Part.ofValue s s') : Looked setting s l s'
  /-- A type is merged if it is not registered with another kind. -/
  | type {isExtension : Bool} {t : TypeDefinition}
      (sameKind : ∀ kind, s.types.kind? t.name = some kind → kind = t.kind) :
      Looked setting s (.type isExtension t) (s.merge setting isExtension t)
  | conflict {isExtension : Bool} {t : TypeDefinition} {kind : TypeKind} (known : s.types.kind? t.name = some kind)
      (other : kind ≠ t.kind) :
      Looked setting s (.type isExtension t) (s.report (.conflictingKinds t.name kind t.kind))
  /-- A field is passed by, reported as a second one, or merged into its registered type. -/
  | passed {isExtension : Bool} {t : TypeDefinition} {f : FieldDefinition}
      (served : ∀ entry, s.types.get? t.name = some entry → entry.composite?.isSome = true →
        ((setting.operation? entry.kind t.name).isSome && isReservedField f.name) = true) :
      Looked setting s (.field isExtension t f) s
  | duplicate {isExtension : Bool} {t : TypeDefinition} {f : FieldDefinition} (kind : TypeKind) :
      Looked setting s (.field isExtension t f) (s.report (.duplicateChild kind t.name (.field f.name)))
  | field {isExtension : Bool} {t : TypeDefinition} {f : FieldDefinition} {entry : TypeEntry}
      (found : s.types.get? t.name = some entry) (composite : entry.composite?.isSome = true)
      (unserved : ((setting.operation? entry.kind t.name).isSome && isReservedField f.name) = false) :
      Looked setting s (.field isExtension t f)
        (s.mergeField setting t.name entry (s.types.field? t.name f.name) f)

theorem looked_look (setting : Setting) (s : Survey) (l : Look) : Looked setting s l (s.look setting l) := by
  cases l with
  | schema d => exact .retained nofun nofun (retains_sightSchema ..) ((writes_sightSchema ..).mono (by decide))
  | enumValue isExtension t v =>
    exact .retained nofun nofun (retains_sightEnumValue ..) ((writes_sightEnumValue ..).mono (by decide))
  | inputValue isExtension t v =>
    exact .retained nofun nofun (retains_sightInputValue ..) ((writes_sightInputValue ..).mono (by decide))
  | type isExtension t =>
    dsimp only [look]
    cases known : s.types.kind? t.name with
    | none => exact .type (by simp [known])
    | some existing =>
      dsimp only
      split
      · next same => exact .type (by simp [known, same])
      · next other => exact .conflict known other
  | field isExtension t f =>
    change Looked setting s _ (s.sightField setting t.name isExtension f)
    rcases sightField_cases setting s t.name isExtension f with
      ⟨same, served⟩ | ⟨kind, same⟩ | ⟨entry, found, composite, unserved, same⟩ <;> rw [same]
    · exact .passed served
    · exact .duplicate kind
    · exact .field found composite unserved

/-- A look only ever adds errors. -/
theorem grows_look (setting : Setting) (s : Survey) (l : Look) : Grows s (s.look setting l) := by
  have looked := looked_look setting s l
  generalize s.look setting l = s' at looked ⊢
  cases looked with
  | retained _ _ kept _ => exact kept.grows
  | type => exact (mergesType_merge ..).grows
  | conflict | duplicate => exact (annotates_report s _).grows
  | passed => exact .refl s
  | field => exact (mergesField_mergeField ..).grows

/-- What is inside a type is looked at one after the other. -/
theorem sightChildren_eq (setting : Setting) (isExtension : Bool) (t : TypeDefinition) (s : Survey) :
    s.sightChildren setting isExtension t = (Look.inside isExtension t).foldl (look setting) s := by
  unfold sightChildren Look.inside
  cases t.body <;> simp only [List.foldl_map, List.foldl_nil] <;> rfl

/-- A type is looked at in one piece, or it is reported that it is registered with another kind. -/
theorem sightType_eq (setting : Setting) (isExtension : Bool) (t : TypeDefinition) (s : Survey) :
    s.sightType setting isExtension t = (Look.ofType isExtension t).foldl (look setting) s ∨
      ∃ e, s.sightType setting isExtension t = s.report e := by
  unfold sightType Look.ofType
  split
  · exact Or.inl rfl
  · rw [List.foldl_cons]
    simp only [look]
    cases s.types.kind? t.name with
    | none => exact Or.inl (sightChildren_eq ..)
    | some existing =>
      dsimp only
      split
      · exact Or.inl (sightChildren_eq ..)
      · exact Or.inr ⟨_, rfl⟩

theorem step_eq (setting : Setting) (s : Survey) (x : Statement) :
    s.step setting x = (Look.ofStatement x).foldl (look setting) s ∨ ∃ e, s.step setting x = s.report e := by
  rcases x with (_ | _ | t) | _ | t
  case define.type => exact sightType_eq setting false t s
  case extendType => exact sightType_eq setting true t s
  all_goals exact Or.inl rfl

/-- Whatever is registered, a type is looked at from its own statement on, as far as it is looked at. -/
theorem exists_looks_sightType (setting : Setting) (isExtension : Bool) (t : TypeDefinition) (s : Survey) :
    ∃ looks, looks ⊆ Look.ofType isExtension t ∧ s.sightType setting isExtension t = looks.foldl (look setting) s := by
  unfold sightType Look.ofType
  split
  · exact ⟨[], List.nil_subset _, rfl⟩
  · cases known : s.types.kind? t.name with
    | none =>
      refine ⟨_, List.Subset.refl _, ?_⟩
      rw [List.foldl_cons, ← sightChildren_eq, look, known]
    | some existing =>
      by_cases same : existing = t.kind
      · refine ⟨_, List.Subset.refl _, ?_⟩
        rw [List.foldl_cons, ← sightChildren_eq, look, known]
        simp only [if_pos same]
      · refine ⟨[.type isExtension t], List.cons_subset_cons _ (List.nil_subset _), ?_⟩
        rw [List.foldl_cons, look, known]
        simp only [if_neg same, List.foldl_nil]

theorem exists_looks_step (setting : Setting) (s : Survey) (x : Statement) :
    ∃ looks, looks ⊆ Look.ofStatement x ∧ s.step setting x = looks.foldl (look setting) s := by
  rcases x with (_ | _ | t) | _ | t
  case define.type => exact exists_looks_sightType setting false t s
  case extendType => exact exists_looks_sightType setting true t s
  all_goals exact ⟨_, List.Subset.refl _, rfl⟩

/-- What holds at the start and is kept by every look holds of a survey, whatever it reports. -/
theorem walk_recOn {setting : Setting} {statements : List Statement} {errors : List Error} {motive : Survey → Prop}
    (begun : motive (start errors))
    (kept : ∀ s, ∀ x ∈ statements, ∀ l ∈ Look.ofStatement x, motive s → motive (s.look setting l)) :
    motive (walk setting errors statements) := by
  refine List.foldlRecOn statements _ begun fun s so_far x member => ?_
  obtain ⟨looks, among, same⟩ := exists_looks_step setting s x
  rw [same]
  exact List.foldlRecOn looks _ so_far fun s so_far l looked => kept s x member l (among looked) so_far

theorem grows_step (setting : Setting) (s : Survey) (x : Statement) : Grows s (s.step setting x) := by
  rcases step_eq setting s x with same | ⟨e, same⟩
  · rw [same]; exact .foldl _ (grows_look setting) _ s
  · rw [same]; exact (annotates_report s e).grows

/-- A survey that ends without errors is the same as looking at everything in order. -/
theorem foldl_step_eq (setting : Setting) (statements : List Statement) (s : Survey)
    (clean : (statements.foldl (step setting) s).errors = []) :
    statements.foldl (step setting) s = (Look.all statements).foldl (look setting) s := by
  induction statements generalizing s with
  | nil => rfl
  | cons x rest ih =>
    -- A conflict of kinds would still be reported at the end.
    have now : (s.step setting x).errors = [] :=
      (Grows.foldl _ (grows_step setting) rest (s.step setting x)).clean clean
    have parts : Look.all (x :: rest) = Look.ofStatement x ++ Look.all rest := List.flatMap_cons
    rw [List.foldl_cons, ih _ clean, parts, List.foldl_append]
    rcases step_eq setting s x with same | ⟨e, same⟩
    · rw [same]
    · simp [same, report] at now

end Survey

end Federation
