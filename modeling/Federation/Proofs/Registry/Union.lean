import Federation.Proofs.Registry.Growth
import Federation.Proofs.Survey.Coherence
import Mathlib.Data.List.Induction

/-!
# What an entry has of its sightings

Where the sightings of a type repeat nothing, its entry has what they say, each thing once and in their order. Whether a
field is external is the one thing that a sighting does not settle alone: a type that is marked as external makes the
fields external that are declared in this sighting and in later ones.
-/

namespace Federation

open Schema

namespace AppliedDirectives

/-- Applications by directive. -/
def ofList (applied : List Directive) : AppliedDirectives := applied.foldl add .empty

theorem ofList_append_singleton (applied : List Directive) (d : Directive) :
    ofList (applied ++ [d]) = (ofList applied).add d := by
  simp [ofList]

@[simp]
theorem named_ofList (applied : List Directive) (name : String) :
    (ofList applied).named name = applied.filter (·.name = name) := by
  induction applied using List.reverseRecOn with
  | nil => rfl
  | append_singleton rest d ih =>
    rw [ofList_append_singleton, named_add, List.filter_append]
    by_cases here : name = d.name
    · subst here
      simp [ih]
    · simp [ih, here, Ne.symm here]

theorem mem_keys_ofList {applied : List Directive} {name : String} :
    name ∈ Table.keys (ofList applied) ↔ ∃ d ∈ applied, d.name = name := by
  induction applied using List.reverseRecOn with
  | nil => simp [ofList, Table.keys]
  | append_singleton rest d ih =>
    rw [ofList_append_singleton, add, Table.mem_keys_upsert, ih]
    simp [or_and_right, exists_or, eq_comm (a := name)]

theorem contains_ofList (applied : List Directive) (name : String) :
    Table.contains (ofList applied) name = applied.any (·.name = name) := by
  rw [Bool.eq_iff_iff, Table.contains_iff, mem_keys_ofList]
  simp

end AppliedDirectives

instance (setting : Setting) (location : Location) (d : Directive) : Decidable (setting.Allows location d) :=
  inferInstanceAs <| Decidable <| ∃ definition ∈ setting.directive? d.name,
    location ∈ definition.locations ∧ DirectiveConformance.argumentFaults d definition = []

namespace Intake

/-- Whether an application is kept on a host that has nothing yet. -/
def keeps (setting : Setting) (location : Location) (d : Directive) : Bool :=
  decide (setting.Allows location d) && !overridesItself setting d && !isSetAside location .empty d

/-- Two applications that may stand on one host: of one directive only if it is repeatable, and as keys only with
different field sets. -/
def Apart (setting : Setting) (d e : Directive) : Prop :=
  d.name = e.name →
    (setting.directive? d.name).all DirectiveDefinition.isRepeatable = true ∧
      (d.name = Vocabulary.key → ∀ fieldSet ∈ d.string? Vocabulary.fields, e.string? Vocabulary.fields ≠ some fieldSet)

instance (setting : Setting) (d e : Directive) : Decidable (Apart setting d e) :=
  inferInstanceAs <| Decidable (_ → _ ∧ (_ → ∀ fieldSet ∈ d.string? Vocabulary.fields,
    e.string? Vocabulary.fields ≠ some fieldSet))

theorem Apart.symm {setting : Setting} {d e : Directive} (apart : Apart setting d e) : Apart setting e d := by
  intro same
  obtain ⟨repeatable, distinct⟩ := apart same.symm
  exact ⟨same ▸ repeatable, fun key fieldSet given given' => distinct (same.symm ▸ key) fieldSet given' given⟩

section Kept

variable {setting : Setting} {location : Location} {i : Intake} {before : List Directive} {d : Directive}

theorem isSetAside_of_apart (held : i.accepted = .ofList (before.filter (keeps setting location)))
    (apart : ∀ e ∈ before, Apart setting e d) : isSetAside location i.accepted d = isSetAside location .empty d := by
  -- What is there already matters to keys alone, and no key there has the same field set.
  by_cases key : d.name = Vocabulary.key
  · have unknown : isKnownKey i.accepted d = false := by
      unfold isKnownKey
      rw [held]
      cases given : d.string? Vocabulary.fields with
      | none => rfl
      | some fieldSet =>
        simp only [AppliedDirectives.named_ofList, List.any_eq_false, List.mem_filter, decide_eq_true_eq]
        rintro e ⟨⟨earlier, -⟩, key'⟩ given'
        exact (apart e earlier (key'.trans key.symm)).2 key' fieldSet given' given
    have unknown' : isKnownKey .empty d = false := by
      unfold isKnownKey
      split <;> rfl
    simp [isSetAside, unknown, unknown']
  · simp [isSetAside, key]

theorem admits_iff_of_apart (held : i.accepted = .ofList (before.filter (keeps setting location)))
    (apart : ∀ e ∈ before, Apart setting e d) : Admits setting location i.accepted d ↔ setting.Allows location d := by
  constructor
  · rintro ⟨definition, defined, placed, sound, -⟩
    exact ⟨definition, defined, placed, sound⟩
  · rintro ⟨definition, defined, placed, sound⟩
    refine ⟨definition, defined, placed, sound, fun single => ?_⟩
    rw [held, AppliedDirectives.contains_ofList, List.any_eq_false]
    intro e kept
    rw [decide_eq_true_eq]
    intro same
    have repeatable := (apart e (List.mem_filter.mp kept).1 same).1
    rw [same, defined, Option.all_some, single] at repeatable
    exact Bool.noConfusion repeatable

/-- An application that stands apart from the earlier ones fares as it would alone. -/
theorem accepted_step_of_apart (held : i.accepted = .ofList (before.filter (keeps setting location)))
    (apart : ∀ e ∈ before, Apart setting e d) (hostPath : String) : (step setting location hostPath i d).accepted =
      .ofList ((before ++ [d]).filter (keeps setting location)) := by
  have admits := admits_iff_of_apart held apart
  rw [List.filter_append]
  by_cases allowed : setting.Allows location d
  · rw [(step_of_admits (admits.mpr allowed) hostPath).1, isSetAside_of_apart held apart, held]
    cases own : overridesItself setting d <;> cases aside : isSetAside location .empty d <;>
      simp [keeps, allowed, own, aside, AppliedDirectives.ofList_append_singleton]
  · rw [(step_of_not_admits (mt admits.mp allowed) hostPath).1, held]
    simp [keeps, allowed]

theorem accepted_foldl_of_apart {applied : List Directive}
    (held : i.accepted = .ofList (before.filter (keeps setting location)))
    (apart : (before ++ applied).Pairwise (Apart setting)) (hostPath : String) :
    (applied.foldl (step setting location hostPath) i).accepted =
      .ofList ((before ++ applied).filter (keeps setting location)) := by
  induction applied generalizing i before with
  | nil => simpa using held
  | cons d rest ih =>
    rw [List.append_cons] at apart ⊢
    have earlier := (List.pairwise_append.mp (List.pairwise_append.mp apart).1).2.2
    exact ih (accepted_step_of_apart held (fun e member => earlier e member d List.mem_cons_self) hostPath) apart

/-- Applications that stand apart are kept if they are kept alone. -/
theorem kept_of_apart {applied : List Directive} (apart : (before ++ applied).Pairwise (Apart setting))
    (location : Location) (hostPath : String) :
    kept setting location hostPath (.ofList (before.filter (keeps setting location))) applied =
      .ofList ((before ++ applied).filter (keeps setting location)) :=
  accepted_foldl_of_apart (i := ⟨_, [], .empty, []⟩) rfl apart hostPath

end Kept

end Intake

/-! ## Views of entries and sightings -/

namespace Schema.TypeDefinition

def values (t : TypeDefinition) : List EnumValueDefinition :=
  match t.body with
  | .enum values => values
  | _ => []

def inputs (t : TypeDefinition) : List InputValueDefinition :=
  match t.body with
  | .inputObject fields => fields
  | _ => []

end Schema.TypeDefinition

/-- An enum value that is declared for the first time. -/
def EnumValue.declared (setting : Setting) (parent : String) (v : EnumValueDefinition) : EnumValue where
  description := v.description
  directives := Intake.kept setting .enumValue (coordinates parent v.name) .empty v.directives

namespace TypeEntry

def fields (entry : TypeEntry) : Table String Field := (entry.composite?.map Composite.fields).getD .empty

def values (entry : TypeEntry) : Table String EnumValue :=
  match entry.shape with
  | .enum values => values
  | _ => .empty

def inputs (entry : TypeEntry) : Table String InputValue :=
  match entry.shape with
  | .inputObject fields => fields
  | _ => .empty

end TypeEntry

namespace Sighting

/-- Whether a sighting marks its type as external. -/
def marks (setting : Setting) (x : Sighting) : Bool :=
  (x.type.directives.filter (Intake.keeps setting x.type.kind.location)).any (·.name = Vocabulary.external)

/-- The fields that a sighting declares, but for those that a federation serves by itself. -/
def fields (setting : Setting) (x : Sighting) : List FieldDefinition :=
  x.type.fields.filter fun f => !Look.isServed setting x.type f

/-- The fields of a sighting as they are declared in a type that is external as a whole, or is not. -/
def declaredFields (setting : Setting) (isParentExternal : Bool) (x : Sighting) : List (String × Field) :=
  (x.fields setting).map fun f => (f.name, .declared setting x.type.name isParentExternal none f)

def declaredValues (setting : Setting) (x : Sighting) : List (String × EnumValue) :=
  x.type.values.map fun v => (v.name, .declared setting x.type.name v)

def declaredInputs (setting : Setting) (x : Sighting) : List (String × InputValue) :=
  x.type.inputs.map fun v =>
    (v.name, .declared setting .inputFieldDefinition (coordinates x.type.name v.name) v)

/-- The fields of sightings in their order. A field is declared in an external type where this sighting or one before
it marks the type. -/
def fieldsFrom (setting : Setting) : Bool → List Sighting → List (String × Field)
  | _, [] => []
  | isMarked, x :: rest =>
    x.declaredFields setting (isMarked || x.marks setting) ++ fieldsFrom setting (isMarked || x.marks setting) rest

theorem fieldsFrom_append (setting : Setting) (isMarked : Bool) (xs ys : List Sighting) :
    fieldsFrom setting isMarked (xs ++ ys) =
      fieldsFrom setting isMarked xs ++ fieldsFrom setting (isMarked || xs.any (marks setting)) ys := by
  induction xs generalizing isMarked with
  | nil => simp [fieldsFrom]
  | cons x rest ih => simp [fieldsFrom, ih, Bool.or_assoc]

/-- A type is marked as external where one of its sightings marks it. -/
theorem contains_external {setting : Setting} {location : Location} {xs : List Sighting}
    (here : ∀ x ∈ xs, x.type.kind.location = location) :
    Table.contains (AppliedDirectives.ofList
      ((xs.flatMap fun x => x.type.directives).filter (Intake.keeps setting location))) Vocabulary.external =
        xs.any (marks setting) := by
  rw [AppliedDirectives.contains_ofList, List.filter_flatMap, List.any_flatMap, Bool.eq_iff_iff, List.any_eq_true,
    List.any_eq_true]
  exact exists_congr fun x => and_congr_right fun member => by rw [marks, here x member]

theorem keys_fieldsFrom (setting : Setting) (isMarked : Bool) (xs : List Sighting) :
    (fieldsFrom setting isMarked xs).map Prod.fst =
      xs.flatMap fun x => (x.fields setting).map FieldDefinition.name := by
  induction xs generalizing isMarked with
  | nil => rfl
  | cons x rest ih => simp [fieldsFrom, declaredFields, ih, Function.comp_def]

theorem names_sublist (setting : Setting) (xs : List Sighting) :
    (xs.flatMap fun x => (x.fields setting).map FieldDefinition.name).Sublist
      (xs.flatMap fun x => x.type.fields.map FieldDefinition.name) := by
  induction xs with
  | nil => exact .slnil
  | cons x rest ih => exact (List.filter_sublist.map _).append ih

theorem keys_declaredValues (setting : Setting) (xs : List Sighting) :
    (xs.flatMap (declaredValues setting)).map Prod.fst =
      xs.flatMap fun x => x.type.values.map EnumValueDefinition.name := by
  simp [declaredValues, List.map_flatMap, Function.comp_def]

theorem keys_declaredInputs (setting : Setting) (xs : List Sighting) :
    (xs.flatMap (declaredInputs setting)).map Prod.fst =
      xs.flatMap fun x => x.type.inputs.map InputValueDefinition.name := by
  simp [declaredInputs, List.map_flatMap, Function.comp_def]

/-- Sightings that repeat nothing. -/
structure Separate (setting : Setting) (xs : List Sighting) : Prop where
  listed : (xs.flatMap fun x => x.type.body.listedNames).Nodup
  fields : (xs.flatMap fun x => x.type.fields.map FieldDefinition.name).Nodup
  values : (xs.flatMap fun x => x.type.values.map EnumValueDefinition.name).Nodup
  inputs : (xs.flatMap fun x => x.type.inputs.map InputValueDefinition.name).Nodup
  directives : (xs.flatMap fun x => x.type.directives).Pairwise (Intake.Apart setting)

instance (setting : Setting) (xs : List Sighting) : Decidable (Separate setting xs) :=
  decidable_of_iff (_ ∧ _ ∧ _ ∧ _ ∧ _)
    ⟨fun ⟨listed, fields, values, inputs, directives⟩ => ⟨listed, fields, values, inputs, directives⟩,
      fun ⟨listed, fields, values, inputs, directives⟩ => ⟨listed, fields, values, inputs, directives⟩⟩

theorem Separate.of_append {setting : Setting} {xs ys : List Sighting} (separate : Separate setting (xs ++ ys)) :
    Separate setting xs := by
  obtain ⟨listed, fields, values, inputs, directives⟩ := separate
  simp only [List.flatMap_append] at listed fields values inputs directives
  exact ⟨(List.nodup_append.mp listed).1, (List.nodup_append.mp fields).1, (List.nodup_append.mp values).1,
    (List.nodup_append.mp inputs).1, (List.pairwise_append.mp directives).1⟩

end Sighting

/-- An entry that has what the sightings of its type say, in their order. -/
structure TypeEntry.Unites (setting : Setting) (xs : List Sighting) (entry : TypeEntry) : Prop where
  kind : ∀ x ∈ xs, x.type.kind = entry.kind
  description : entry.description = xs.findSome? fun x => nonEmptyDescription x.type.description
  extension : entry.extension = .byKeyword ↔ ∃ x ∈ xs, x.isExtension = true
  hasBase : entry.hasBase = xs.any fun x => !x.isExtension
  directives : entry.directives =
    .ofList ((xs.flatMap fun x => x.type.directives).filter (Intake.keeps setting entry.kind.location))
  listed : entry.shape.listedNames.toList = xs.flatMap fun x => x.type.body.listedNames
  fields : entry.fields.toList = Sighting.fieldsFrom setting false xs
  values : entry.values.toList = xs.flatMap (Sighting.declaredValues setting)
  inputs : entry.inputs.toList = xs.flatMap (Sighting.declaredInputs setting)

namespace TypeEntry

/-! ## One more sighting -/

/-- Two entries that differ only in what stands inside their type. -/
structure SameAround (a b : TypeEntry) : Prop where
  kind : b.kind = a.kind
  description : b.description = a.description
  extension : b.extension = a.extension
  hasBase : b.hasBase = a.hasBase
  directives : b.directives = a.directives
  listed : b.shape.listedNames = a.shape.listedNames

theorem SameAround.refl (a : TypeEntry) : SameAround a a := ⟨rfl, rfl, rfl, rfl, rfl, rfl⟩

theorem SameAround.trans {a b c : TypeEntry} (first : SameAround a b) (second : SameAround b c) : SameAround a c :=
  ⟨second.kind.trans first.kind, second.description.trans first.description, second.extension.trans first.extension,
    second.hasBase.trans first.hasBase, second.directives.trans first.directives, second.listed.trans first.listed⟩

theorem SameAround.foldl {α : Type} {grow : TypeEntry → α → TypeEntry} (one : ∀ a x, SameAround a (grow a x))
    (xs : List α) (a : TypeEntry) : SameAround a (xs.foldl grow a) :=
  List.foldlRecOn (motive := fun b => SameAround a b) xs grow (.refl a) fun _ same x _ => same.trans (one _ x)

section Children

variable (setting : Setting) (parent : String) (isExtension : Bool)

theorem sameAround_withField (entry : TypeEntry) (f : FieldDefinition) :
    SameAround entry (entry.withField setting parent isExtension f) := by
  unfold withField
  obtain ⟨_, _, _, _, shape⟩ := entry
  cases shape with
  | interface c | object c =>
    simp only [composite?, Shape.composite?]
    split
    · exact .refl _
    · split
      · exact .refl _
      · exact ⟨rfl, rfl, rfl, rfl, rfl, rfl⟩
  | enum | inputObject | scalar | union => exact .refl _

theorem sameAround_withEnumValue (entry : TypeEntry) (v : EnumValueDefinition) :
    SameAround entry (entry.withEnumValue setting parent isExtension v) := by
  unfold withEnumValue
  obtain ⟨_, _, _, _, shape⟩ := entry
  cases shape with
  | enum values =>
    dsimp only
    split
    · exact .refl _
    · exact ⟨rfl, rfl, rfl, rfl, rfl, rfl⟩
  | inputObject | interface | object | scalar | union => exact .refl _

theorem sameAround_withInputValue (entry : TypeEntry) (v : InputValueDefinition) :
    SameAround entry (entry.withInputValue setting parent isExtension v) := by
  unfold withInputValue
  obtain ⟨_, _, _, _, shape⟩ := entry
  cases shape with
  | inputObject fields =>
    dsimp only
    split
    · exact .refl _
    · exact ⟨rfl, rfl, rfl, rfl, rfl, rfl⟩
  | enum | interface | object | scalar | union => exact .refl _

theorem sameAround_withChildren (t : TypeDefinition) (entry : TypeEntry) :
    SameAround entry (entry.withChildren setting isExtension t) := by
  unfold withChildren
  cases t.body with
  | enum values => exact .foldl (sameAround_withEnumValue setting t.name isExtension) values entry
  | inputObject fields => exact .foldl (sameAround_withInputValue setting t.name isExtension) fields entry
  | interface _ fields | object _ fields => exact .foldl (sameAround_withField setting t.name isExtension) fields entry
  | scalar | union => exact .refl entry

variable {setting parent isExtension}

/-- What is declared under new names comes after what is there, one after the other. -/
theorem toList_foldl {α β : Type} {entry : TypeEntry} {grow : TypeEntry → α → TypeEntry}
    {view : TypeEntry → Table String β} {name : α → String} (keep : α → Bool) (make : α → β)
    (around : ∀ a x, SameAround a (grow a x))
    (one : ∀ a x, SameAround entry a → name x ∉ (view a).keys →
      (view (grow a x)).toList = (view a).toList ++ if keep x then [(name x, make x)] else [])
    {xs : List α} (distinct : ((view entry).keys ++ xs.map name).Nodup) :
    (view (xs.foldl grow entry)).toList = (view entry).toList ++ (xs.filter keep).map fun x => (name x, make x) := by
  -- Kind and directives stay as they are in `entry`, so every step adds what the first would add.
  have fold : ∀ a, SameAround entry a → ((view a).keys ++ xs.map name).Nodup →
      (view (xs.foldl grow a)).toList = (view a).toList ++ (xs.filter keep).map fun x => (name x, make x) := by
    clear distinct
    induction xs with
    | nil => simp
    | cons x rest ih =>
      intro a same distinct
      have new : name x ∉ (view a).keys := fun known =>
        (List.nodup_append.mp distinct).2.2 _ known _ List.mem_cons_self rfl
      have first := one a x same new
      have keys : (view (grow a x)).keys.Sublist ((view a).keys ++ [name x]) := by
        rw [Table.keys, first, List.map_append]
        refine (List.Sublist.refl _).append ?_
        split <;> simp
      rw [List.map_cons, List.append_cons] at distinct
      rw [List.foldl_cons, ih _ (same.trans (around a x)) ((keys.append_right _).nodup distinct), first,
        List.filter_cons]
      split <;> simp
  exact fold entry (.refl entry) distinct

theorem exists_composite {entry : TypeEntry} (kind : entry.kind = .interface ∨ entry.kind = .object) :
    ∃ c, entry.composite? = some c := by
  obtain ⟨_, _, _, _, shape⟩ := entry
  cases shape <;> simp_all [TypeEntry.kind, Shape.kind, composite?, Shape.composite?]

theorem toList_fields_withField {entry : TypeEntry} (kind : entry.kind = .interface ∨ entry.kind = .object)
    {f : FieldDefinition} (new : f.name ∉ entry.fields.keys) :
    (entry.withField setting parent isExtension f).fields.toList =
      entry.fields.toList ++
        if !((setting.operation? entry.kind parent).isSome && Survey.isReservedField f.name) then
          [(f.name, .declared setting parent (entry.directives.contains Vocabulary.external) none f)]
        else [] := by
  obtain ⟨c, composite⟩ := exists_composite kind
  have own : entry.fields = c.fields := by simp [fields, composite]
  rw [own] at new ⊢
  have unknown : c.fields.get? f.name = none := Table.get?_eq_none_iff.mpr new
  -- The new field is written to the fields that the entry has, whichever kind of composite it is.
  have after (g : Composite → Composite) :
      ({ entry with shape := entry.shape.mapComposite g } : TypeEntry).fields = (g c).fields := by
    obtain ⟨_, _, _, _, shape⟩ := entry
    cases shape <;> simp_all [fields, composite?, Shape.composite?, Shape.mapComposite]
  unfold withField
  simp only [composite, unknown]
  cases (setting.operation? entry.kind parent).isSome && Survey.isReservedField f.name with
  | true => simp [own]
  | false => exact (congrArg Table.toList (after _)).trans (Table.toList_insert_of_notMem new _)

theorem toList_values_withEnumValue {entry : TypeEntry} (kind : entry.kind = .enum) {v : EnumValueDefinition}
    (new : v.name ∉ entry.values.keys) : (entry.withEnumValue setting parent isExtension v).values.toList =
      entry.values.toList ++ [(v.name, .declared setting parent v)] := by
  obtain ⟨_, _, _, _, shape⟩ := entry
  cases shape with
  | enum values =>
    have unknown : values.get? v.name = none := Table.get?_eq_none_iff.mpr new
    simp only [withEnumValue, unknown]
    exact Table.toList_insert_of_notMem new _
  | inputObject | interface | object | scalar | union => cases kind

theorem toList_inputs_withInputValue {entry : TypeEntry} (kind : entry.kind = .inputObject) {v : InputValueDefinition}
    (new : v.name ∉ entry.inputs.keys) : (entry.withInputValue setting parent isExtension v).inputs.toList =
      entry.inputs.toList ++
        [(v.name, .declared setting .inputFieldDefinition (coordinates parent v.name) v)] := by
  obtain ⟨_, _, _, _, shape⟩ := entry
  cases shape with
  | inputObject fields =>
    have unknown : fields.get? v.name = none := Table.get?_eq_none_iff.mpr new
    simp only [withInputValue, unknown]
    exact Table.toList_insert_of_notMem new _
  | enum | interface | object | scalar | union => cases kind

theorem fields_eq_empty {entry : TypeEntry} (kind : ¬ (entry.kind = .interface ∨ entry.kind = .object)) :
    entry.fields = .empty := by
  obtain ⟨_, _, _, _, shape⟩ := entry
  cases shape <;> first | rfl | simp [TypeEntry.kind, Shape.kind] at kind

theorem values_eq_empty {entry : TypeEntry} (kind : entry.kind ≠ .enum) : entry.values = .empty := by
  obtain ⟨_, _, _, _, shape⟩ := entry
  cases shape <;> first | rfl | exact absurd rfl kind

theorem inputs_eq_empty {entry : TypeEntry} (kind : entry.kind ≠ .inputObject) : entry.inputs = .empty := by
  obtain ⟨_, _, _, _, shape⟩ := entry
  cases shape <;> first | rfl | exact absurd rfl kind

end Children

section Sighted

variable {setting : Setting} {entry : TypeEntry} {x : Sighting} (same : x.type.kind = entry.kind)

include same

theorem toList_fields_withChildren (isExtension : Bool)
    (distinct : (entry.fields.keys ++ x.type.fields.map FieldDefinition.name).Nodup) :
    (entry.withChildren setting isExtension x.type).fields.toList =
      entry.fields.toList ++ x.declaredFields setting (entry.directives.contains Vocabulary.external) := by
  have around := sameAround_withChildren setting isExtension x.type entry
  obtain ⟨_, name, description, directives, body⟩ := x
  cases body with
  | interface implements fields | object implements fields =>
    have composite : entry.kind = .interface ∨ entry.kind = .object := by
      simp [← same, TypeDefinition.kind, TypeBody.kind]
    refine toList_foldl _ (.declared setting name (entry.directives.contains Vocabulary.external) none)
      (sameAround_withField setting name isExtension) (fun a f same' new => ?_) distinct
    rw [toList_fields_withField (same'.kind.symm ▸ composite) new, same'.kind, same'.directives, ← same]
    rfl
  | enum | inputObject | scalar | union =>
    have other : ¬ (entry.kind = .interface ∨ entry.kind = .object) := by
      simp [← same, TypeDefinition.kind, TypeBody.kind]
    rw [fields_eq_empty (around.kind.symm ▸ other), fields_eq_empty other]
    rfl

theorem toList_values_withChildren (isExtension : Bool)
    (distinct : (entry.values.keys ++ x.type.values.map EnumValueDefinition.name).Nodup) :
    (entry.withChildren setting isExtension x.type).values.toList =
      entry.values.toList ++ x.declaredValues setting := by
  have around := sameAround_withChildren setting isExtension x.type entry
  obtain ⟨_, name, description, directives, body⟩ := x
  cases body with
  | enum values =>
    refine (toList_foldl (fun _ => true) (.declared setting name)
      (sameAround_withEnumValue setting name isExtension) (fun a v same' new => ?_) distinct).trans ?_
    · exact toList_values_withEnumValue (same'.kind.trans same.symm) new
    · rw [List.filter_true]
      rfl
  | interface | object | inputObject | scalar | union =>
    have other : entry.kind ≠ .enum := by simp [← same, TypeDefinition.kind, TypeBody.kind]
    rw [values_eq_empty (around.kind.symm ▸ other), values_eq_empty other]
    rfl

theorem toList_inputs_withChildren (isExtension : Bool)
    (distinct : (entry.inputs.keys ++ x.type.inputs.map InputValueDefinition.name).Nodup) :
    (entry.withChildren setting isExtension x.type).inputs.toList =
      entry.inputs.toList ++ x.declaredInputs setting := by
  have around := sameAround_withChildren setting isExtension x.type entry
  obtain ⟨_, name, description, directives, body⟩ := x
  cases body with
  | inputObject fields =>
    refine (toList_foldl (fun _ => true)
      (fun v => .declared setting .inputFieldDefinition (coordinates name v.name) v)
      (sameAround_withInputValue setting name isExtension) (fun a v same' new => ?_) distinct).trans ?_
    · exact toList_inputs_withInputValue (same'.kind.trans same.symm) new
    · rw [List.filter_true]
      rfl
  | enum | interface | object | scalar | union =>
    have other : entry.kind ≠ .inputObject := by simp [← same, TypeDefinition.kind, TypeBody.kind]
    rw [inputs_eq_empty (around.kind.symm ▸ other), inputs_eq_empty other]
    rfl

end Sighted

end TypeEntry

/-! ## All sightings -/

theorem Survey.extensionOf_eq_byKeyword_iff (setting : Setting) (isExtension : Bool) (t : TypeDefinition)
    (intake : Intake) : extensionOf setting isExtension t intake = .byKeyword ↔ isExtension = true := by
  unfold extensionOf
  cases isExtension with
  | true => simp
  | false =>
    rw [if_neg Bool.false_ne_true]
    split <;> simp

namespace TypeEntry

/-- An entry of which nothing is known but the kind. -/
def blank (kind : TypeKind) : TypeEntry where
  description := none
  directives := .empty
  extension := .none
  hasBase := false
  shape := .ofKind kind

theorem kind_blank (k : TypeKind) : (blank k).kind = k := Shape.kind_ofKind k

/-- The first sighting of a type adds to nothing. -/
theorem joined_none (setting : Setting) (isExtension : Bool) (t : TypeDefinition) :
    joined setting isExtension t none = joined setting isExtension t (some (blank t.kind)) := by
  have first (directives : AppliedDirectives) (extension : Extension) :
      first t.kind t.description directives extension = (blank t.kind).again t.description directives extension := by
    cases extension <;> rfl
  exact congrArg (fun entry : TypeEntry => { entry with shape := entry.shape.list t.body.listedNames }) (first _ _)

theorem grown_none (setting : Setting) (x : Sighting) :
    grown setting none x = grown setting (some (blank x.type.kind)) x := by
  simp [grown, joined_none, kind_blank]

theorem unites_blank (setting : Setting) (kind : TypeKind) : Unites setting [] (blank kind) := by
  refine ⟨nofun, rfl, ?_, rfl, rfl, ?_, ?_, ?_, ?_⟩
  · simp [blank]
  all_goals cases kind <;> rfl

section Joined

variable (setting : Setting) (isExtension : Bool) (t : TypeDefinition) (entry : TypeEntry)

theorem kind_joined : (joined setting isExtension t (some entry)).kind = entry.kind :=
  Shape.kind_list _ entry.shape

theorem fields_joined : (joined setting isExtension t (some entry)).fields = entry.fields := by
  obtain ⟨_, _, _, _, shape⟩ := entry
  cases shape <;> rfl

theorem values_joined : (joined setting isExtension t (some entry)).values = entry.values := by
  obtain ⟨_, _, _, _, shape⟩ := entry
  cases shape <;> rfl

theorem inputs_joined : (joined setting isExtension t (some entry)).inputs = entry.inputs := by
  obtain ⟨_, _, _, _, shape⟩ := entry
  cases shape <;> rfl

theorem extension_joined_eq : (joined setting isExtension t (some entry)).extension =
    if isExtension then .byKeyword
    else if entry.hasBase ∨ entry.extension = .byKeyword then entry.extension
    else Survey.extensionOf setting isExtension t (intake setting t (some entry)) :=
  if_congr (Survey.extensionOf_eq_byKeyword_iff ..) rfl rfl

/-- Extending by keyword is never forgotten. -/
theorem extension_joined : (joined setting isExtension t (some entry)).extension = .byKeyword ↔
    entry.extension = .byKeyword ∨ isExtension = true := by
  have keyword := Survey.extensionOf_eq_byKeyword_iff setting isExtension t (intake setting t (some entry))
  rw [extension_joined_eq]
  split
  · next here => simp [here]
  · next other =>
    split
    · simp [other]
    · next unsettled => exact keyword.trans (or_iff_right (not_or.mp unsettled).2).symm

theorem hasBase_joined : (joined setting isExtension t (some entry)).hasBase = (entry.hasBase || !isExtension) := by
  have keyword := Survey.extensionOf_eq_byKeyword_iff setting isExtension t (intake setting t (some entry))
  change (entry.hasBase || decide (Survey.extensionOf setting isExtension t (intake setting t (some entry)) ≠ _)) = _
  simp [keyword]

end Joined

theorem kind_joined_of_same (setting : Setting) (isExtension : Bool) {t : TypeDefinition} {old? : Option TypeEntry}
    (same : ∀ old ∈ old?, old.kind = t.kind) : (joined setting isExtension t old?).kind = t.kind := by
  cases old? with
  | none => rw [joined_none, kind_joined, kind_blank]
  | some old => rw [kind_joined, same old rfl]

/-- A sighting that has the kind of the entry, if there is one, joins it with what stands inside. -/
theorem exists_grown (setting : Setting) (old? : Option TypeEntry) (x : Sighting)
    (same : ∀ old ∈ old?, old.kind = x.type.kind) : ∃ entry, grown setting old? x = some entry ∧
      SameAround (joined setting x.isExtension x.type old?) entry ∧ entry.kind = x.type.kind := by
  have admitted : (old?.map TypeEntry.kind).all (· = x.type.kind) = true := by
    cases old? with
    | none => rfl
    | some old => exact decide_eq_true (same old rfl)
  have around := sameAround_withChildren setting x.isExtension x.type (joined setting x.isExtension x.type old?)
  exact ⟨_, if_pos admitted, around, around.kind.trans (kind_joined_of_same setting _ same)⟩

/-- One more sighting of a type, if nothing in it was said before, is united with the others. -/
theorem Unites.grown {setting : Setting} {xs : List Sighting} {entry : TypeEntry} (united : Unites setting xs entry)
    {x : Sighting} (same : x.type.kind = entry.kind) (separate : Sighting.Separate setting (xs ++ [x])) :
    ∃ entry', TypeEntry.grown setting (some entry) x = some entry' ∧ entry'.kind = entry.kind ∧
      Unites setting (xs ++ [x]) entry' := by
  obtain ⟨listed, fields, values, inputs, directives⟩ := separate
  simp only [List.flatMap_append, List.flatMap_singleton] at listed fields values inputs directives
  -- The directives of the sighting join those before it, and only then its fields are declared.
  let j := joined setting x.isExtension x.type (some entry)
  have around := sameAround_withChildren setting x.isExtension x.type j
  have kind : j.kind = entry.kind := kind_joined ..
  have applied : j.directives =
      .ofList (((xs ++ [x]).flatMap fun x => x.type.directives).filter (Intake.keeps setting entry.kind.location)) := by
    have kept := Intake.kept_of_apart directives entry.kind.location x.type.name
    rw [← united.directives] at kept
    rw [List.flatMap_append, List.flatMap_singleton, ← kept, ← same]
    rfl
  have kinds : ∀ y ∈ xs ++ [x], y.type.kind = entry.kind := by
    intro y member
    rcases List.mem_append.mp member with earlier | last
    · exact united.kind y earlier
    · rw [List.mem_singleton.mp last, same]
  have marked : Table.contains j.directives Vocabulary.external = (xs ++ [x]).any (Sighting.marks setting) :=
    applied ▸ Sighting.contains_external fun y member => congrArg TypeKind.location (kinds y member)
  refine ⟨j.withChildren setting x.isExtension x.type, by simp [TypeEntry.grown, same, j], around.kind.trans kind, ?_⟩
  constructor
  case kind => exact fun y member => (kinds y member).trans (around.kind.trans kind).symm
  case description =>
    rw [around.description, List.findSome?_append, ← united.description]
    exact congrArg (Option.or _) (List.findSome?_singleton ..).symm
  case extension =>
    rw [around.extension]
    refine (extension_joined ..).trans ?_
    rw [united.extension]
    simp [or_and_right, exists_or]
  case hasBase =>
    rw [around.hasBase]
    refine (hasBase_joined ..).trans ?_
    rw [united.hasBase]
    simp
  case directives => rw [around.directives, around.kind, kind, applied]
  case listed =>
    have names := Shape.listedNames_list x.type.body entry.shape same.symm
    rw [around.listed]
    change (entry.shape.list x.type.body.listedNames).listedNames.toList = _
    obtain ⟨-, own, apart⟩ := List.nodup_append.mp listed
    rw [names, OrderedSet.toList_insertAll, OrderedSet.fresh_of_nodup own fun a member earlier => ?_, united.listed]
    · simp
    · exact apart a (united.listed ▸ earlier) a member rfl
  case fields =>
    rw [toList_fields_withChildren (same.trans kind.symm) _ ?_, fields_joined, marked, united.fields]
    · simp [Sighting.fieldsFrom_append, Sighting.fieldsFrom]
    · rw [fields_joined, Table.keys, united.fields, Sighting.keys_fieldsFrom]
      exact ((Sighting.names_sublist setting xs).append_right _).nodup fields
  case values =>
    rw [toList_values_withChildren (same.trans kind.symm) _ ?_, values_joined, united.values]
    · simp
    · rwa [values_joined, Table.keys, united.values, Sighting.keys_declaredValues]
  case inputs =>
    rw [toList_inputs_withChildren (same.trans kind.symm) _ ?_, inputs_joined, united.inputs]
    · simp
    · rwa [inputs_joined, Table.keys, united.inputs, Sighting.keys_declaredInputs]

theorem Unites.foldl {setting : Setting} {xs : List Sighting} {entry : TypeEntry} (united : Unites setting xs entry)
    {ys : List Sighting} (same : ∀ y ∈ ys, y.type.kind = entry.kind) (separate : Sighting.Separate setting (xs ++ ys)) :
    ∃ entry', ys.foldl (TypeEntry.grown setting) (some entry) = some entry' ∧ Unites setting (xs ++ ys) entry' := by
  induction ys generalizing xs entry with
  | nil => exact ⟨entry, rfl, by rwa [List.append_nil]⟩
  | cons y rest ih =>
    rw [List.append_cons] at separate ⊢
    obtain ⟨entry', grown, kind, united'⟩ := united.grown (same y List.mem_cons_self) separate.of_append
    rw [List.foldl_cons, grown]
    exact ih united' (fun z later => (same z (List.mem_cons_of_mem y later)).trans kind.symm) separate

/-- Sightings of one kind that repeat nothing make an entry that has what they say. -/
theorem unites_ofSightings {setting : Setting} {xs : List Sighting} (some : xs ≠ [])
    (same : ∀ x ∈ xs, ∀ y ∈ xs, x.type.kind = y.type.kind) (separate : Sighting.Separate setting xs) :
    ∃ entry, ofSightings setting xs = .some entry ∧ Unites setting xs entry := by
  -- The first sighting starts from a blank entry, which unites no sightings at all.
  obtain ⟨x, rest, rfl⟩ := List.exists_cons_of_ne_nil some
  have start : ofSightings setting (x :: rest) =
      (x :: rest).foldl (TypeEntry.grown setting) (.some (blank x.type.kind)) := by
    rw [ofSightings, List.foldl_cons, grown_none, List.foldl_cons]
  rw [start]
  exact (unites_blank setting x.type.kind).foldl
    (fun y member => (same y member x List.mem_cons_self).trans (kind_blank _).symm) separate

end TypeEntry

end Federation
